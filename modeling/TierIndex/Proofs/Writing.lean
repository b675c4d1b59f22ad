import Mathlib.Data.List.Basic
import TierIndex.Proofs.RoundTrip

set_option autoImplicit false

/-! # Writing leaves all records or none

Records go into a buffer one at a time, so when a zone turns up that does not fit, the records of
others may stand there already, and the buffer is cut back to where it ended before (`appendEach`).
This comes to the same as writing all records or none (`appendEach_eq`).

Reading undoes such writing. Writing undoes reading up to one point, for a heat byte above the limit
is read as the limit (`Fields.capped`). Both directions are `append_decode_inverse`.
-/

namespace TierIndex

namespace Record

variable {o : KeyOrder} {z : Zone} {zs : List Zone} {slots : List (Option Zone)}

/-! ## Writing zone by zone -/

/-- Write the records of the slots in use behind those in the buffer, of which there are `n` so far.
At a zone that does not fit, the buffer is cut back to the mark. -/
def appendEach (mark : Nat) (buffer : List UInt8) (n : Nat) :
    List (Option Zone) → List UInt8 × Except Fault Nat
  | [] => (buffer, .ok n)
  | none :: slots => appendEach mark buffer n slots
  | some z :: slots =>
      if Fits z then appendEach mark (buffer ++ ofZone z) (n + 1) slots
      else (buffer.take mark, .error (.map (.keyTooLong (max z.span.lo.length z.span.hi.length))))

theorem encode_cons_of_fits (h : Fits z) (zs : List Zone) :
    encode (z :: zs) = (encode zs).map (ofZone z ++ ·) := by
  unfold encode
  rw [List.find?_cons_of_neg (by simpa using h)]
  split <;> rfl

theorem encode_cons_of_not_fits (h : ¬ Fits z) (zs : List Zone) :
    encode (z :: zs) = .error (.map (.keyTooLong (max z.span.lo.length z.span.hi.length))) := by
  unfold encode
  rw [List.find?_cons_of_pos (p := fun z => ¬ Fits z) (decide_eq_true h)]

/-- **What is written zone by zone**, behind a buffer that reaches beyond the mark. -/
theorem appendEach_eq {mark : Nat} {buffer : List UInt8} (hmark : mark ≤ buffer.length) (n : Nat)
    (slots : List (Option Zone)) :
    appendEach mark buffer n slots =
      match encode (slots.filterMap id) with
      | .error e => (buffer.take mark, .error e)
      | .ok bytes => (buffer ++ bytes, .ok (n + (slots.filterMap id).length)) := by
  induction slots generalizing buffer n with
  | nil => simp [appendEach, encode]
  | cons slot slots ih =>
      cases slot with
      | none => exact ih hmark n
      | some z =>
          rw [appendEach, List.filterMap_cons_some (f := id) (a := some z) (b := z) rfl]
          by_cases hfit : Fits z
          · have hmark' : mark ≤ (buffer ++ ofZone z).length := by
              rw [List.length_append]
              omega
            rw [if_pos hfit, ih hmark', encode_cons_of_fits hfit]
            cases encode (slots.filterMap id) with
            | error e =>
                -- the records written so far lie behind the mark
                exact congrArg (·, Except.error e) (List.take_append_of_le_length hmark)
            | ok bytes =>
                simp only [Except.map, List.append_assoc, List.length_cons, Nat.add_assoc,
                  Nat.add_comm 1]
          · rw [if_neg hfit, encode_cons_of_not_fits hfit]

/-- Cutting back to the end of the buffer leaves it as it was. -/
theorem appendEach_length (buffer : List UInt8) (slots : List (Option Zone)) :
    appendEach buffer.length buffer 0 slots = append buffer slots := by
  rw [appendEach_eq (Nat.le_refl _), List.take_length, Nat.zero_add]
  rfl

/-! ## When writing is refused -/

theorem encode_eq_error {e : Fault} (h : encode zs = .error e) :
    (∃ z ∈ zs, ¬ Fits z) ∧ ∃ n, e = .map (.keyTooLong n) := by
  unfold encode at h
  split at h
  · next z hfind =>
      cases h
      have hlong := List.find?_some (p := fun z => ¬ Fits z) hfind
      exact ⟨⟨z, List.mem_of_find?_eq_some hfind, of_decide_eq_true hlong⟩, _, rfl⟩
  · cases h

theorem append_of_fits (h : ∀ z ∈ slots.filterMap id, Fits z) (buffer : List UInt8) :
    append buffer slots =
      (buffer ++ (slots.filterMap id).flatMap ofZone, .ok (slots.filterMap id).length) := by
  rw [append, encode_eq_ok.mpr ⟨h, rfl⟩]

/-- Refused writing leaves the buffer alone. -/
theorem append_eq_error {buffer : List UInt8} {e : Fault}
    (h : (append buffer slots).2 = .error e) :
    (append buffer slots).1 = buffer ∧ encode (slots.filterMap id) = .error e := by
  unfold append at h ⊢
  dsimp only at h ⊢
  cases hencode : encode (slots.filterMap id) with
  | error e' =>
      rw [hencode] at h
      cases h
      exact ⟨rfl, rfl⟩
  | ok bytes =>
      rw [hencode] at h
      cases h

/-- **Writing is refused** exactly if a zone does not fit. -/
theorem append_refused_iff {buffer : List UInt8} :
    (∃ e, (append buffer slots).2 = .error e) ↔ ∃ z ∈ slots.filterMap id, ¬ Fits z := by
  constructor
  · rintro ⟨e, he⟩
    exact (encode_eq_error (append_eq_error he).2).1
  · rintro ⟨z, hz, hlong⟩
    cases hencode : encode (slots.filterMap id) with
    | error e => exact ⟨e, by rw [append, hencode]⟩
    | ok bytes => exact absurd ((encode_eq_ok.mp hencode).1 z hz) hlong

/-! ## Writing what was read -/

namespace Fields

/-- The record with its heat cut off at the limit. -/
def capped (r : Fields) : Fields := { r with heat := if 250 < r.heat then 250 else r.heat }

theorem capped_of_le {r : Fields} (h : r.heat ≤ 250) : r.capped = r := by
  rw [capped, if_neg (UInt8.not_lt.mpr h)]

theorem zone_fits (r : Fields) : Fits r.zone := ⟨r.lo_le, r.hi_le⟩

/-- The heat that is read from a byte is written as the byte, cut off at the limit. -/
theorem Valid.heatByte_eq {r : Fields} (h : r.Valid o) : heatByte r.zone.heat = r.capped.heat := by
  have hread := toNat_heatByte h.sound.heat_pos h.sound.heat_le
  have hheat : r.zone.heat = min (r.heat.toNat : Int) 250 := rfl
  apply UInt8.toNat_inj.mp
  show (heatByte r.zone.heat).toNat = (if 250 < r.heat then 250 else r.heat).toNat
  split
  · next hover =>
      have : 250 < r.heat.toNat := UInt8.lt_iff_toNat_lt.mp hover
      show (heatByte r.zone.heat).toNat = 250
      omega
  · next hunder =>
      have : r.heat.toNat ≤ 250 := UInt8.le_iff_toNat_le.mp (UInt8.not_lt.mp hunder)
      omega

theorem Valid.ofZone_eq {r : Fields} (h : r.Valid o) : ofZone r.zone = r.capped.bytes := by
  have htier : (if r.zone.fast then 1 else 0) = r.tier := by
    rcases h.tier_eq with h0 | h1 <;> simp [zone, *]
  rw [ofZone, h.heatByte_eq, htier]
  simp [bytes, capped, zone]

end Fields

theorem flatMap_ofZone {rs : List Fields} (h : ∀ r ∈ rs, r.Valid o) :
    (rs.map Fields.zone).flatMap ofZone = joined (rs.map Fields.capped) := by
  rw [List.flatMap_map, joined, List.flatMap_map]
  exact List.flatMap_congr fun r hr => (h r hr).ofZone_eq

/-- **Writing undoes reading**, up to heat bytes above the limit. -/
theorem append_decode {rs : List Fields} (h : decode o (joined rs) = .ok zs) :
    append [] (zs.map some) = (joined (rs.map Fields.capped), .ok zs.length) := by
  obtain ⟨rs', hvalid, hbytes, rfl⟩ := decode_eq_ok_iff.mp h
  obtain rfl := joined_inj hbytes
  have hused : ((rs.map Fields.zone).map some).filterMap id = rs.map Fields.zone := by simp
  have hfits : ∀ z ∈ ((rs.map Fields.zone).map some).filterMap id, Fits z := by
    rw [hused]
    intro z hz
    obtain ⟨r, -, rfl⟩ := List.mem_map.mp hz
    exact r.zone_fits
  rw [append_of_fits hfits, hused, flatMap_ofZone hvalid, List.nil_append]

theorem joined_capped {rs : List Fields} (h : ∀ r ∈ rs, r.heat ≤ 250) :
    joined (rs.map Fields.capped) = joined rs := by
  have hsame : rs.map Fields.capped = rs.map id :=
    List.map_congr_left fun r hr => Fields.capped_of_le (h r hr)
  rw [hsame, List.map_id]

/-! ## Both directions -/

/-- **Writing and reading undo each other, and refused writing leaves no trace.** Writing is refused
exactly if the key of a zone is too long, however many records come before it, and the buffer then is
what it was. Otherwise the records of the zones come behind it, they are counted, and if the zones
are sound, reading gives them back in order. What is read from a list of records is written as these
records, with heat bytes above the limit replaced by the limit, and so as the same bytes if there
are none. -/
theorem append_decode_inverse (o : KeyOrder) :
    (∀ slots : List (Option Zone),
      (∀ buffer, appendEach buffer.length buffer 0 slots = append buffer slots) ∧
      (∀ buffer, (∃ e, (append buffer slots).2 = .error e) ↔
        ∃ z ∈ slots.filterMap id, ¬ Fits z) ∧
      (∀ buffer e, (append buffer slots).2 = .error e →
        (append buffer slots).1 = buffer ∧ ∃ n, e = .map (.keyTooLong n)) ∧
      ((∀ z ∈ slots.filterMap id, Fits z) → ∃ bytes,
        (∀ buffer, append buffer slots = (buffer ++ bytes, .ok (slots.filterMap id).length)) ∧
        ((∀ z ∈ slots.filterMap id, z.Sound o) → decode o bytes = .ok (slots.filterMap id)))) ∧
    (∀ bytes zs, decode o bytes = .ok zs →
      (∃ rs, bytes = joined rs) ∧
      ∀ rs, bytes = joined rs →
        append [] (zs.map some) = (joined (rs.map Fields.capped), .ok zs.length) ∧
        ((∀ r ∈ rs, r.heat ≤ 250) → append [] (zs.map some) = (bytes, .ok zs.length))) := by
  constructor
  · intro slots
    refine ⟨fun buffer => appendEach_length buffer slots, fun buffer => append_refused_iff,
      fun buffer e he => ?_, fun hfits => ⟨_, append_of_fits hfits, fun hsound => ?_⟩⟩
    · obtain ⟨hleft, hencode⟩ := append_eq_error he
      exact ⟨hleft, (encode_eq_error hencode).2⟩
    · exact decode_encode hsound (encode_eq_ok.mpr ⟨hfits, rfl⟩)
  · intro bytes zs hread
    obtain ⟨rs, -, hbytes, -⟩ := decode_eq_ok_iff.mp hread
    refine ⟨⟨rs, hbytes⟩, ?_⟩
    rintro rs rfl
    have hwritten := append_decode hread
    refine ⟨hwritten, fun hheat => ?_⟩
    rw [hwritten, joined_capped hheat]

/-- A record with the heat byte `255` comes back with the byte `250`. A key of `256` bytes behind a
zone that fits and a free slot is refused, and the two bytes of the buffer are left. -/
theorem append_decode_inverse_above_limit :
    decode .bytewise [255, 1, 1, 7, 1, 9] = .ok [⟨⟨[7], [9]⟩, 250, true⟩] ∧
      append [] [some ⟨⟨[7], [9]⟩, 250, true⟩] = ([250, 1, 1, 7, 1, 9], .ok 1) ∧
      (append [3, 4] [some ⟨⟨[7], [9]⟩, 250, true⟩, none,
        some ⟨⟨[], List.replicate 256 0⟩, 5, false⟩]).1 = [3, 4] := by
  have hread : decode .bytewise [255, 1, 1, 7, 1, 9] = .ok [⟨⟨[7], [9]⟩, 250, true⟩] :=
    decode_eq_ok_iff.mpr ⟨[⟨255, 1, [7], [9], by decide, by decide⟩],
      by simpa using ⟨by decide, Or.inr rfl, by decide⟩, rfl, rfl⟩
  have hwritten := (append_decode_inverse .bytewise).2 _ _ hread
  refine ⟨hread, (hwritten.2 [⟨255, 1, [7], [9], by decide, by decide⟩] rfl).1, ?_⟩
  obtain ⟨-, hrefused, hleft, -⟩ := (append_decode_inverse .bytewise).1
    [some ⟨⟨[7], [9]⟩, 250, true⟩, none, some ⟨⟨[], List.replicate 256 0⟩, 5, false⟩]
  have hlong : ¬ Fits ⟨⟨[], List.replicate 256 0⟩, 5, false⟩ := by
    rintro ⟨-, hhi⟩
    rw [List.length_replicate] at hhi
    exact absurd hhi (by decide)
  obtain ⟨e, he⟩ := (hrefused [3, 4]).mpr
    ⟨_, List.mem_cons_of_mem _ List.mem_cons_self, hlong⟩
  exact (hleft [3, 4] e he).1

end Record

end TierIndex
