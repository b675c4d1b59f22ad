import Mathlib.Data.List.Induction
import TierIndex.Placer.Memo

set_option autoImplicit false

/-! # What the history of a memo says

A memo holds one answer at most, so it forgets almost everything that has happened to it. What it
answers can still be told from the list of all calls: the memo answers with the last refresh that
was accepted, unless a later call has ended that answer (`Memo.Stands`). A refresh is accepted if it
names the generation of its time, and that is the number of calls before it that drop or clear,
whether they found something to drop or not.

None of this depends on how keys are compared, and so it is said of a memo under any comparison, of
which the key orders are two. Only that a drop ends every answer for its keys takes a comparison
that is a total order.

The proof follows the list of calls from its end: a further call stands itself, or ends what stands,
or leaves it (`stands_append`).
-/

namespace TierIndex

/-! ## Any comparison of keys -/

namespace KeyOrder

variable {o : KeyOrder} {a b : Key}

theorem isLE_compare : (o.compare a b).isLE ↔ o.Le a b := by
  rw [Ordering.isLE_iff_ne_gt, compare_eq_gt, not_lt]

theorem isGE_compare : (o.compare a b).isGE ↔ o.Le b a := by
  rw [Ordering.isGE_iff_ne_lt, compare_eq_lt, not_lt]

instance (o : KeyOrder) : Std.TransCmp o.compare where
  eq_swap {a b} := by
    cases h : o.compare b a with
    | lt => exact compare_eq_gt.mpr (compare_eq_lt.mp h)
    | eq => exact compare_eq_eq.mpr (compare_eq_eq.mp h).symm
    | gt => exact compare_eq_lt.mpr (compare_eq_gt.mp h)
  isLE_trans hab hbc := isLE_compare.mpr (le_trans (isLE_compare.mp hab) (isLE_compare.mp hbc))

end KeyOrder

namespace Span

variable {cmp : Key → Key → Ordering} {o : KeyOrder} {s t : Span} {k : Key}

/-- The span holds the key under the comparison. -/
abbrev HoldsBy (cmp : Key → Key → Ordering) (s : Span) (k : Key) : Prop :=
  (cmp k s.lo).isGE ∧ (cmp k s.hi).isLE

/-- Neither span ends before the other starts under the comparison. -/
abbrev MeetsBy (cmp : Key → Key → Ordering) (s t : Span) : Prop :=
  (cmp s.hi t.lo).isGE ∧ (cmp t.hi s.lo).isGE

theorem holdsBy_compare : s.HoldsBy o.compare k ↔ s.Holds o k :=
  and_congr KeyOrder.isGE_compare KeyOrder.isLE_compare

theorem meetsBy_compare : s.MeetsBy o.compare t ↔ s.Meets o t :=
  and_congr KeyOrder.isGE_compare KeyOrder.isGE_compare

/-- Spans with a common key meet. -/
theorem meetsBy_of_holdsBy [Std.TransCmp cmp] (hs : s.HoldsBy cmp k) (ht : t.HoldsBy cmp k) :
    s.MeetsBy cmp t := by
  have hshi : (cmp s.hi k).isGE := Std.OrientedCmp.isGE_iff_isLE.mpr hs.2
  have hthi : (cmp t.hi k).isGE := Std.OrientedCmp.isGE_iff_isLE.mpr ht.2
  exact ⟨Std.TransCmp.isGE_trans hshi ht.1, Std.TransCmp.isGE_trans hthi hs.1⟩

end Span

namespace Memo

/-- The remembered answer, if its span holds the key under the comparison. -/
def lookupBy (cmp : Key → Key → Ordering) (m : Memo) (k : Key) : Option Bool :=
  match m.answer with
  | some (s, b) => if s.HoldsBy cmp k then some b else none
  | none => none

/-- Start a new generation, and drop the answer if its span meets the given one under the
comparison. -/
def dropMeetingBy (cmp : Key → Key → Ordering) (m : Memo) (t : Span) : Memo :=
  ⟨m.answer.filter fun a => ¬ a.1.MeetsBy cmp t, m.generation + 1⟩

theorem lookupBy_compare (o : KeyOrder) (m : Memo) (k : Key) :
    m.lookupBy o.compare k = m.lookup o k := by
  cases h : m.answer with
  | none => simp only [lookupBy, lookup, h]
  | some a => simp only [lookupBy, lookup, h, Span.holdsBy_compare]

theorem dropMeetingBy_compare (o : KeyOrder) (m : Memo) (t : Span) :
    m.dropMeetingBy o.compare t = m.dropMeeting o t := by
  simp only [dropMeetingBy, dropMeeting, Span.meetsBy_compare]

theorem lookupBy_eq_some {cmp : Key → Key → Ordering} {m : Memo} {k : Key} {b : Bool} :
    m.lookupBy cmp k = some b ↔ ∃ s, m.answer = some (s, b) ∧ s.HoldsBy cmp k := by
  unfold lookupBy
  split
  · next s c h =>
      rw [Option.ite_none_right_eq_some]
      simp [h, and_comm]
  · next h => simp [h]

/-! ## Calls and what they do -/

/-- What a memo can be called for. -/
inductive Call where
  /-- The remembered answer for a key. -/
  | lookup (k : Key)
  /-- Remembering an answer computed in a generation. -/
  | refresh (generation : UInt64) (s : Span) (b : Bool)
  /-- Dropping an answer that meets a span. -/
  | dropMeeting (t : Span)
  /-- Dropping any answer. -/
  | clear

/-- The memo after a call. -/
def call (cmp : Key → Key → Ordering) (m : Memo) : Call → Memo
  | .lookup _ => m
  | .refresh generation s b => (m.refresh generation s b).1
  | .dropMeeting t => m.dropMeetingBy cmp t
  | .clear => m.clear

/-- The memo after several calls, beginning with nothing remembered. -/
def afterCalls (cmp : Key → Key → Ordering) (calls : List Call) : Memo :=
  calls.foldl (call cmp) .empty

/-- The call begins a new generation. -/
def Call.renews : Call → Bool
  | .lookup _ => false
  | .refresh _ _ _ => false
  | .dropMeeting _ => true
  | .clear => true

/-- The number of calls that begin a new generation. -/
def renewals (calls : List Call) : Nat := calls.countP Call.renews

/-! ## The answer that stands -/

section

variable {cmp : Key → Key → Ordering} {calls : List Call} {c : Call} {i : Nat} {s : Span} {b : Bool}

/-- Call number `i` asks the memo to remember the answer, and names as its generation the number of
renewals before it. -/
def AcceptedAt (calls : List Call) (i : Nat) (s : Span) (b : Bool) : Prop :=
  ∃ generation, calls[i]? = some (.refresh generation s b) ∧
    generation.toNat = renewals (calls.take i)

/-- Call number `i` is the last accepted refresh, and nothing after it has ended its answer. -/
structure Stands (cmp : Key → Key → Ordering) (calls : List Call) (i : Nat) (s : Span) (b : Bool) :
    Prop where
  accepted : AcceptedAt calls i s b
  last : ∀ j s' b', i < j → ¬ AcceptedAt calls j s' b'
  not_cleared : ∀ j, i < j → calls[j]? ≠ some .clear
  not_dropped : ∀ j t, i < j → calls[j]? = some (.dropMeeting t) → ¬ s.MeetsBy cmp t

/-- The call is a refresh with this answer, and is accepted after the given calls. -/
def Accepts (calls : List Call) (c : Call) (s : Span) (b : Bool) : Prop :=
  ∃ generation, c = .refresh generation s b ∧ generation.toNat = renewals calls

theorem AcceptedAt.lt (h : AcceptedAt calls i s b) : i < calls.length := by
  obtain ⟨generation, hcall, -⟩ := h
  exact (List.getElem?_eq_some_iff.mp hcall).1

/-- One more call stands behind the others. -/
theorem getElem?_append_call {j : Nat} {d : Call} :
    (calls ++ [c])[j]? = some d ↔ calls[j]? = some d ∨ (j = calls.length ∧ c = d) := by
  rcases Nat.lt_trichotomy j calls.length with hlt | heq | hgt
  · simp [List.getElem?_append_left hlt, Nat.ne_of_lt hlt]
  · subst heq
    simp
  · have hlong : (calls ++ [c]).length ≤ j := by simp; omega
    simp [List.getElem?_eq_none hlong, List.getElem?_eq_none (Nat.le_of_lt hgt), Nat.ne_of_gt hgt]

theorem acceptedAt_append :
    AcceptedAt (calls ++ [c]) i s b ↔
      AcceptedAt calls i s b ∨ (i = calls.length ∧ Accepts calls c s b) := by
  unfold AcceptedAt Accepts
  constructor
  · rintro ⟨generation, hcall, hcount⟩
    rcases getElem?_append_call.mp hcall with hold | ⟨rfl, hnew⟩
    · have hlt := (List.getElem?_eq_some_iff.mp hold).1
      rw [List.take_append_of_le_length (Nat.le_of_lt hlt)] at hcount
      exact Or.inl ⟨generation, hold, hcount⟩
    · rw [List.take_left] at hcount
      exact Or.inr ⟨rfl, generation, hnew, hcount⟩
  · rintro (⟨generation, hold, hcount⟩ | ⟨rfl, generation, hnew, hcount⟩)
    · have hlt := (List.getElem?_eq_some_iff.mp hold).1
      refine ⟨generation, getElem?_append_call.mpr (Or.inl hold), ?_⟩
      rw [List.take_append_of_le_length (Nat.le_of_lt hlt)]
      exact hcount
    · refine ⟨generation, getElem?_append_call.mpr (Or.inr ⟨rfl, hnew⟩), ?_⟩
      rw [List.take_left]
      exact hcount

/-- **One more call** stands itself, or it leaves what stands: it is no accepted refresh, does not
clear, and drops nothing that meets the answer. -/
theorem stands_append :
    Stands cmp (calls ++ [c]) i s b ↔
      (i = calls.length ∧ Accepts calls c s b) ∨
      (Stands cmp calls i s b ∧ (∀ s' b', ¬ Accepts calls c s' b') ∧ c ≠ .clear ∧
        ∀ t, c = .dropMeeting t → ¬ s.MeetsBy cmp t) := by
  constructor
  · rintro ⟨haccepted, hlast, hclear, hdrop⟩
    rcases acceptedAt_append.mp haccepted with hold | hnew
    · -- the new call comes after the one that stands
      have hlt := hold.lt
      refine Or.inr ⟨⟨hold, fun j s' b' hj h => ?_, fun j hj h => ?_, fun j t hj h => ?_⟩,
        fun s' b' h => ?_, ?_, ?_⟩
      · exact hlast j s' b' hj (acceptedAt_append.mpr (Or.inl h))
      · exact hclear j hj (getElem?_append_call.mpr (Or.inl h))
      · exact hdrop j t hj (getElem?_append_call.mpr (Or.inl h))
      · exact hlast calls.length s' b' hlt (acceptedAt_append.mpr (Or.inr ⟨rfl, h⟩))
      · rintro rfl
        exact hclear calls.length hlt (getElem?_append_call.mpr (Or.inr ⟨rfl, rfl⟩))
      · rintro t rfl
        exact hdrop calls.length t hlt (getElem?_append_call.mpr (Or.inr ⟨rfl, rfl⟩))
    · exact Or.inl hnew
  · rintro (⟨rfl, hnew⟩ | ⟨⟨hold, hlast, hclear, hdrop⟩, hrefresh, hnoclear, hnodrop⟩)
    · -- nothing comes after the new call
      have hend : ∀ j d, calls.length < j → (calls ++ [c])[j]? ≠ some d := by
        intro j d hj h
        have hlt := (List.getElem?_eq_some_iff.mp h).1
        rw [List.length_append, List.length_singleton] at hlt
        omega
      refine ⟨acceptedAt_append.mpr (Or.inr ⟨rfl, hnew⟩), ?_, fun j hj => hend j _ hj,
        fun j t hj h => absurd h (hend j _ hj)⟩
      rintro j s' b' hj ⟨generation, h, -⟩
      exact hend j _ hj h
    · refine ⟨acceptedAt_append.mpr (Or.inl hold), fun j s' b' hj h => ?_, fun j hj h => ?_,
        fun j t hj h => ?_⟩
      · rcases acceptedAt_append.mp h with h | ⟨-, h⟩
        · exact hlast j s' b' hj h
        · exact hrefresh s' b' h
      · rcases getElem?_append_call.mp h with h | ⟨-, h⟩
        · exact hclear j hj h
        · exact hnoclear h
      · rcases getElem?_append_call.mp h with h | ⟨-, h⟩
        · exact hdrop j t hj h
        · exact hnodrop t h

/-! ## The memo and its history -/

theorem afterCalls_append (cmp : Key → Key → Ordering) (calls : List Call) (c : Call) :
    afterCalls cmp (calls ++ [c]) = call cmp (afterCalls cmp calls) c := by
  simp [afterCalls]

theorem renewals_append (calls : List Call) (c : Call) :
    renewals (calls ++ [c]) = renewals calls + if c.renews then 1 else 0 := by
  simp [renewals]

/-- **The generation is the number of renewals**, as long as there are numbers for them. -/
theorem generation_afterCalls (cmp : Key → Key → Ordering) (calls : List Call) :
    (afterCalls cmp calls).generation = .ofNat (renewals calls) := by
  induction calls using List.reverseRecOn with
  | nil => rfl
  | append_singleton calls c ih =>
      rw [afterCalls_append, renewals_append]
      cases c with
      | lookup k => exact ih
      | refresh generation s b =>
          show ((afterCalls cmp calls).refresh generation s b).1.generation = _
          unfold refresh
          split <;> exact ih
      | dropMeeting t =>
          show (afterCalls cmp calls).generation + 1 = _
          rw [ih]
          exact (UInt64.ofNat_add ..).symm
      | clear =>
          show (afterCalls cmp calls).generation + 1 = _
          rw [ih]
          exact (UInt64.ofNat_add ..).symm

theorem generation_eq_iff (hfew : renewals calls < UInt64.size) {generation : UInt64} :
    (afterCalls cmp calls).generation = generation ↔ generation.toNat = renewals calls := by
  rw [generation_afterCalls, ← UInt64.toNat_inj, UInt64.toNat_ofNat',
    Nat.mod_eq_of_lt hfew]
  exact eq_comm

/-- **The memo holds the answer that stands.** -/
theorem answer_afterCalls (hfew : renewals calls < UInt64.size) :
    (afterCalls cmp calls).answer = some (s, b) ↔ ∃ i, Stands cmp calls i s b := by
  induction calls using List.reverseRecOn generalizing s b with
  | nil =>
      constructor
      · intro h
        cases h
      · rintro ⟨i, h⟩
        exact absurd h.accepted.lt (Nat.not_lt_zero i)
  | append_singleton calls c ih =>
      have hfew' : renewals calls < UInt64.size := by
        rw [renewals_append] at hfew
        omega
      have hold := ih (s := s) (b := b) hfew'
      simp only [afterCalls_append, stands_append]
      cases c with
      | lookup k =>
          show (afterCalls cmp calls).answer = _ ↔ _
          simpa [Accepts] using hold
      | refresh generation s' b' =>
          show ((afterCalls cmp calls).refresh generation s' b').1.answer = _ ↔ _
          unfold refresh
          by_cases hg : generation.toNat = renewals calls
          · rw [if_pos ((generation_eq_iff hfew').mpr hg)]
            simp [Accepts, hg]
          · rw [if_neg fun h => hg ((generation_eq_iff hfew').mp h)]
            simpa [Accepts, hg] using hold
      | dropMeeting t =>
          show ((afterCalls cmp calls).answer.filter fun a => ¬ a.1.MeetsBy cmp t) = _ ↔ _
          rw [Option.filter_eq_some_iff, hold]
          constructor
          · rintro ⟨⟨i, h⟩, hkeep⟩
            refine ⟨i, Or.inr ⟨h, by simp [Accepts], by simp, ?_⟩⟩
            rintro _ ⟨⟩
            exact of_decide_eq_true hkeep
          · rintro ⟨i, ⟨-, h⟩ | ⟨h, -, -, hdrop⟩⟩
            · simp [Accepts] at h
            · exact ⟨⟨i, h⟩, decide_eq_true (hdrop t rfl)⟩
      | clear =>
          show (none : Option (Span × Bool)) = _ ↔ _
          simp [Accepts]

/-- After a drop no key of the dropped span is answered. -/
theorem lookupBy_dropMeetingBy [Std.TransCmp cmp] (m : Memo) {t : Span} {k : Key}
    (hk : t.HoldsBy cmp k) : (m.dropMeetingBy cmp t).lookupBy cmp k = none := by
  cases hlookup : (m.dropMeetingBy cmp t).lookupBy cmp k with
  | none => rfl
  | some b =>
      -- an answer for the key would be for a span that holds it, and so meets the dropped one
      obtain ⟨s, hs, hsk⟩ := lookupBy_eq_some.mp hlookup
      obtain ⟨-, hkeep⟩ := Option.filter_eq_some_iff.mp hs
      exact absurd (Span.meetsBy_of_holdsBy hsk hk) (of_decide_eq_true hkeep)

/-- **The history says what a memo answers.** After fewer renewals than there are generations, the
memo has an answer for a key exactly if some refresh stands, the last accepted one with nothing
after it that ends its answer, and its span holds the key; and then it is the answer of that
refresh. A refresh is taken exactly if it names the number of renewals before it. Right after a
drop there is no answer for a key of the dropped span, if the comparison is a total order. Spans may
have their ends in either order. Under the key orders this is the memo of the placer. -/
theorem lookup_iff_stands (cmp : Key → Key → Ordering) (calls : List Call)
    (hfew : renewals calls < UInt64.size) :
    (∀ k b, (afterCalls cmp calls).lookupBy cmp k = some b ↔
      ∃ i s, Stands cmp calls i s b ∧ s.HoldsBy cmp k) ∧
    (∀ generation s b, ((afterCalls cmp calls).refresh generation s b).2 = true ↔
      generation.toNat = renewals calls) ∧
    (∀ [Std.TransCmp cmp] t k, t.HoldsBy cmp k →
      (afterCalls cmp (calls ++ [.dropMeeting t])).lookupBy cmp k = none) ∧
    ∀ (o : KeyOrder) (m : Memo), Std.TransCmp o.compare ∧
      (∀ k, m.lookupBy o.compare k = m.lookup o k) ∧
      ∀ t, m.dropMeetingBy o.compare t = m.dropMeeting o t := by
  refine ⟨fun k b => ?_, fun generation s b => ?_, fun t k hk => ?_, fun o m =>
    ⟨inferInstance, lookupBy_compare o m, dropMeetingBy_compare o m⟩⟩
  · rw [lookupBy_eq_some]
    constructor
    · rintro ⟨s, hs, hk⟩
      obtain ⟨i, hi⟩ := (answer_afterCalls hfew).mp hs
      exact ⟨i, s, hi, hk⟩
    · rintro ⟨i, s, hi, hk⟩
      exact ⟨s, (answer_afterCalls hfew).mpr ⟨i, hi⟩, hk⟩
  · have hgeneration : (afterCalls cmp calls).generation = generation ↔ _ :=
      generation_eq_iff hfew
    rw [← hgeneration, refresh]
    split
    · next h => exact iff_of_true rfl h
    · next h => exact iff_of_false Bool.false_ne_true h
  · rw [afterCalls_append]
    exact lookupBy_dropMeetingBy _ hk

/-- Neither of the two drops meets the first answer, the one because it is elsewhere and the other
because its ends are reversed. They make the second refresh come too late, and the first answer
still stands. -/
theorem lookup_iff_stands_late :
    let cmp := KeyOrder.bytewise.compare
    let calls : List Call := [.refresh 0 ⟨[1], [5]⟩ true, .dropMeeting ⟨[7], [9]⟩,
      .refresh 0 ⟨[3], [8]⟩ false, .dropMeeting ⟨[9], [0]⟩]
    renewals calls < UInt64.size ∧
      (∃ i s, Stands cmp calls i s true ∧ s.HoldsBy cmp [4]) ∧
      ((afterCalls cmp calls).refresh 1 ⟨[3], [8]⟩ false).2 ≠ true ∧
      (afterCalls cmp (calls ++ [.dropMeeting ⟨[4], [6]⟩])).lookupBy cmp [4] = none := by
  intro cmp calls
  have hfew : renewals calls < UInt64.size := by decide
  obtain ⟨hlookup, hrefresh, hdrop, -⟩ := lookup_iff_stands cmp calls hfew
  refine ⟨hfew, (hlookup [4] true).mp (by decide), fun htaken => ?_, hdrop _ _ (by decide)⟩
  exact absurd ((hrefresh 1 ⟨[3], [8]⟩ false).mp htaken) (by decide)

end

end Memo

end TierIndex
