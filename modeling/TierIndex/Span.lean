import TierIndex.Key

set_option autoImplicit false

/-! # Spans of keys

A span is a range of keys with both ends included. All relations between spans are read
under a key order: two spans **meet** when they have a key in common, a shared end being
enough, and one **covers** another when it holds all of it.

Spans are stored with the very bytes they were given. Under a versioned order several
byte strings count as one key, so `union` also fixes whose bytes stay: an end is replaced
only by a key that lies strictly beyond it.
-/

namespace TierIndex

/-- The keys from `lo` to `hi`, both included. -/
structure Span where
  lo : Key
  hi : Key
  deriving DecidableEq

namespace Span

/-- The span between two keys given in either order. -/
def between (o : KeyOrder) (a b : Key) : Span := if o.Lt b a then ⟨b, a⟩ else ⟨a, b⟩

/-- The ends stand in order, so the span holds at least one key. -/
abbrev Proper (o : KeyOrder) (s : Span) : Prop := o.Le s.lo s.hi

/-- The span holds the key. -/
abbrev Holds (o : KeyOrder) (s : Span) (k : Key) : Prop := o.Le s.lo k ∧ o.Le k s.hi

/-- The span reaches at least as far as `t` on both sides. -/
abbrev Covers (o : KeyOrder) (s t : Span) : Prop := o.Le s.lo t.lo ∧ o.Le t.hi s.hi

/-- Neither span ends before the other starts. -/
abbrev Meets (o : KeyOrder) (s t : Span) : Prop := o.Le t.lo s.hi ∧ o.Le s.lo t.hi

/-- One span ends where the other starts, or before: they share at most a boundary key. -/
abbrev Apart (o : KeyOrder) (s t : Span) : Prop := o.Le s.hi t.lo ∨ o.Le t.hi s.lo

/-- The spans have the same ends. -/
abbrev Same (o : KeyOrder) (s t : Span) : Prop := o.Same s.lo t.lo ∧ o.Same s.hi t.hi

/-- The least span that covers both. An end of `s` gives way only to an end of `t` that
lies strictly beyond it. -/
def union (o : KeyOrder) (s t : Span) : Span := ⟨o.least s.lo t.lo, o.greatest s.hi t.hi⟩

/-! ## Ends and covering -/

theorem between_proper (o : KeyOrder) (a b : Key) : (between o a b).Proper o := by
  unfold between
  by_cases h : o.Lt b a
  · rw [if_pos h]
    exact KeyOrder.le_of_lt h
  · rw [if_neg h]
    exact KeyOrder.not_lt.mp h

theorem meets_comm {o : KeyOrder} {s t : Span} : s.Meets o t ↔ t.Meets o s := And.comm

theorem covers_refl (o : KeyOrder) (s : Span) : s.Covers o s := ⟨o.le_refl _, o.le_refl _⟩

theorem Covers.trans {o : KeyOrder} {r s t : Span} (h : r.Covers o s) (h' : s.Covers o t) :
    r.Covers o t :=
  ⟨KeyOrder.le_trans h.1 h'.1, KeyOrder.le_trans h'.2 h.2⟩

theorem Covers.holds {o : KeyOrder} {s t : Span} (h : s.Covers o t) {k : Key}
    (hk : t.Holds o k) : s.Holds o k :=
  ⟨KeyOrder.le_trans h.1 hk.1, KeyOrder.le_trans hk.2 h.2⟩

/-- What meets a span also meets every span that covers it. -/
theorem Covers.meets {o : KeyOrder} {r s t : Span} (h : s.Covers o t) (hr : r.Meets o t) :
    r.Meets o s :=
  ⟨KeyOrder.le_trans h.1 hr.1, KeyOrder.le_trans hr.2 h.2⟩

theorem Covers.meets_self {o : KeyOrder} {s t : Span} (h : s.Covers o t) (ht : t.Proper o) :
    t.Meets o s :=
  h.meets ⟨ht, ht⟩

theorem apart_comm {o : KeyOrder} {s t : Span} : s.Apart o t ↔ t.Apart o s := Or.comm

/-- Spans that do not meet do not even share a boundary key. -/
theorem not_meets {o : KeyOrder} {s t : Span} :
    ¬ s.Meets o t ↔ o.Lt s.hi t.lo ∨ o.Lt t.hi s.lo := by
  rw [Decidable.not_and_iff_or_not, KeyOrder.not_le, KeyOrder.not_le]

theorem apart_of_not_meets {o : KeyOrder} {s t : Span} (h : ¬ s.Meets o t) : s.Apart o t :=
  (not_meets.mp h).imp KeyOrder.le_of_lt KeyOrder.le_of_lt

theorem same_comm {o : KeyOrder} {s t : Span} : s.Same o t ↔ t.Same o s :=
  ⟨fun h => ⟨h.1.symm, h.2.symm⟩, fun h => ⟨h.1.symm, h.2.symm⟩⟩

theorem same_iff_covers {o : KeyOrder} {s t : Span} :
    s.Same o t ↔ s.Covers o t ∧ t.Covers o s := by
  constructor
  · rintro ⟨hlo, hhi⟩
    have hlo' := KeyOrder.same_iff.mp hlo
    have hhi' := KeyOrder.same_iff.mp hhi
    exact ⟨⟨hlo'.1, hhi'.2⟩, ⟨hlo'.2, hhi'.1⟩⟩
  · rintro ⟨⟨hlo, hhi⟩, ⟨hlo', hhi'⟩⟩
    exact ⟨KeyOrder.same_iff.mpr ⟨hlo, hlo'⟩, KeyOrder.same_iff.mpr ⟨hhi', hhi⟩⟩

/-! ## The union -/

/-- The union is the least span that covers both. -/
theorem covers_union_iff {o : KeyOrder} {r s t : Span} :
    r.Covers o (s.union o t) ↔ r.Covers o s ∧ r.Covers o t := by
  constructor
  · rintro ⟨hlo, hhi⟩
    have hlo' := KeyOrder.le_least_iff.mp hlo
    have hhi' := KeyOrder.greatest_le_iff.mp hhi
    exact ⟨⟨hlo'.1, hhi'.1⟩, ⟨hlo'.2, hhi'.2⟩⟩
  · rintro ⟨⟨hlos, hhis⟩, ⟨hlot, hhit⟩⟩
    exact ⟨KeyOrder.le_least_iff.mpr ⟨hlos, hlot⟩, KeyOrder.greatest_le_iff.mpr ⟨hhis, hhit⟩⟩

theorem union_covers_left (o : KeyOrder) (s t : Span) : (s.union o t).Covers o s :=
  (covers_union_iff.mp (covers_refl o _)).1

theorem union_covers_right (o : KeyOrder) (s t : Span) : (s.union o t).Covers o t :=
  (covers_union_iff.mp (covers_refl o _)).2

theorem union_proper {o : KeyOrder} {s : Span} (hs : s.Proper o) (t : Span) :
    (s.union o t).Proper o :=
  have h := union_covers_left o s t
  KeyOrder.le_trans h.1 (KeyOrder.le_trans hs h.2)

/-! ## Spans as sets of keys -/

/-- Spans with a key in common meet. -/
theorem meets_of_holds {o : KeyOrder} {s t : Span} {k : Key} (hs : s.Holds o k)
    (ht : t.Holds o k) : s.Meets o t :=
  ⟨KeyOrder.le_trans ht.1 hs.2, KeyOrder.le_trans hs.1 ht.2⟩

/-- Two spans meet exactly when some key lies in both. -/
theorem meets_iff_exists {o : KeyOrder} {s t : Span} (hs : s.Proper o) (ht : t.Proper o) :
    s.Meets o t ↔ ∃ k, s.Holds o k ∧ t.Holds o k := by
  constructor
  · rintro ⟨hts, hst⟩
    -- the later of the two starts
    refine ⟨o.greatest s.lo t.lo, ⟨?_, ?_⟩, ⟨?_, ?_⟩⟩
    · exact KeyOrder.le_greatest_iff.mpr (Or.inl (o.le_refl _))
    · exact KeyOrder.greatest_le_iff.mpr ⟨hs, hts⟩
    · exact KeyOrder.le_greatest_iff.mpr (Or.inr (o.le_refl _))
    · exact KeyOrder.greatest_le_iff.mpr ⟨hst, ht⟩
  · rintro ⟨k, hk, hk'⟩
    exact meets_of_holds hk hk'

/-- A key of the union of two spans that meet lies in one of them: nothing is added
between them. -/
theorem holds_union_iff {o : KeyOrder} {s t : Span} (h : s.Meets o t) {k : Key} :
    (s.union o t).Holds o k ↔ s.Holds o k ∨ t.Holds o k := by
  constructor
  · rintro ⟨hlo, hhi⟩
    rcases KeyOrder.least_le_iff.mp hlo with hs | ht
    · by_cases hk : o.Le k s.hi
      · exact Or.inl ⟨hs, hk⟩
      · -- `k` lies behind `s`, so it is `t` that reaches it
        have hsk := KeyOrder.le_of_lt (KeyOrder.not_le.mp hk)
        have hkt := (KeyOrder.le_greatest_iff.mp hhi).resolve_left hk
        exact Or.inr ⟨KeyOrder.le_trans h.1 hsk, hkt⟩
    · by_cases hk : o.Le k t.hi
      · exact Or.inr ⟨ht, hk⟩
      · have htk := KeyOrder.le_of_lt (KeyOrder.not_le.mp hk)
        have hks := (KeyOrder.le_greatest_iff.mp hhi).resolve_right hk
        exact Or.inl ⟨KeyOrder.le_trans h.2 htk, hks⟩
  · rintro (hk | hk)
    · exact (union_covers_left o s t).holds hk
    · exact (union_covers_right o s t).holds hk

end Span

end TierIndex
