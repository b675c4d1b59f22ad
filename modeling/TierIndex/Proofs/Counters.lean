import TierIndex.Proofs.Calls

set_option autoImplicit false

/-! # Counters

The plain account of what a heat map is for: one counter for each span, with nothing to say for the
neighbours of the span, for slots, or for a target. An access changes the counter of its own span,
confirming goes over the spans inside another one, and cooling over all of them. Counters handle the
calls of a heat map, so that the replies can be compared call by call (`MapReply.Agrees`).

A span has one counter at most, which every change keeps (`Counters.alter`), and only an access
brings a new span in (`spans_handle`).
-/

namespace TierIndex

/-- The heat of a span and its confirmed tier. -/
structure Counter where
  heat : Int
  fast : Bool

/-- A zone is a counter with its span. -/
def Counter.zone (e : Span × Counter) : Zone := ⟨e.1, e.2.heat, e.2.fast⟩

/-- Counters by their span, of which no two are the same. -/
structure Counters (p : Params) where
  entries : List (Span × Counter)
  distinct : entries.Pairwise fun d e => ¬ d.1.Same p.order e.1

namespace Counters

variable {p : Params}

/-- No counters. -/
def empty (p : Params) : Counters p := ⟨[], .nil⟩

/-- The counter of a span, with the span as it was given first. -/
def counter? (c : Counters p) (s : Span) : Option (Span × Counter) :=
  c.entries.find? fun e => e.1.Same p.order s

/-- The counters after each one has been changed or removed. -/
def alter (c : Counters p) (f : Span → Counter → Option Counter) : Counters p where
  entries := c.entries.filterMap fun e => (f e.1 e.2).map fun x => (e.1, x)
  distinct := by
    refine List.pairwise_filterMap.mpr (c.distinct.imp ?_)
    intro d e hne d' hd e' he
    obtain ⟨x, -, rfl⟩ := Option.map_eq_some_iff.mp hd
    obtain ⟨y, -, rfl⟩ := Option.map_eq_some_iff.mp he
    exact hne

/-- The counters with another one in place of that of the span, or with none in its place. -/
def set (c : Counters p) (s : Span) (x : Option Counter) : Counters p :=
  c.alter fun t y => if t.Same p.order s then x else some y

/-- The counters with one for a span that has none yet. -/
def add (c : Counters p) (s : Span) (x : Counter) (h : c.counter? s = none) : Counters p where
  entries := (s, x) :: c.entries
  distinct := by
    refine List.pairwise_cons.mpr ⟨fun e he hsame => ?_, c.distinct⟩
    have hne := List.find?_eq_none.mp h e he
    exact hne (decide_eq_true (Span.same_comm.mp hsame))

/-! ## What is counted -/

/-- Heat for the counter of one span, and whether this counter crosses a threshold. A missing
counter starts with the heat, up to the limit; heat beyond the limit is dropped whole; a counter
without heat is removed. -/
def store (c : Counters p) (s : Span) (d : Int) : Except Fault (Counters p × Bool) :=
  match h : c.counter? s with
  | none =>
      if d ≤ 0 then .error (.map (.coldStart d))
      else .ok (c.add s ⟨min d maxHeat, false⟩ h, p.boiling ≤ min d maxHeat)
  | some (_, x) =>
      let heat := x.heat + d
      if d = 0 then .error (.map .noHeat)
      else if maxHeat < heat then .ok (c, false)
      else .ok (c.set s (if heat ≤ 0 then none else some { x with heat }),
        p.crosses x.heat heat x.fast)

/-- Note the tier of every counter whose span lies inside `s`, and count these. -/
def mark (c : Counters p) (s : Span) (fast : Bool) : Counters p × Nat :=
  (c.alter fun t x => some (if s.Covers p.order t then { x with fast } else x),
    c.entries.countP fun e => s.Covers p.order e.1)

/-- Let every heat decay, and list the spans that leave the fast tier. -/
def decay (c : Counters p) (left : Int → Int) : Counters p × List Span :=
  (c.alter fun _ x => if left x.heat = 0 then none else some { x with heat := left x.heat },
    (c.entries.filter fun e =>
      e.2.fast && p.freezing < e.2.heat && left e.2.heat ≤ p.freezing).map Prod.fst)

/-- Scale every heat by a factor strictly between zero and one. -/
def cool (c : Counters p) (factor : Double) : Except Fault (Counters p × List Span) :=
  if factor.InUnit then .ok (c.decay (HeatMap.cooledHeat factor))
  else .error (.map (.factorOutside factor))

/-- The counter whose span holds the key. -/
def find? (c : Counters p) (k : Key) : Option (Span × Counter) :=
  c.entries.find? fun e => e.1.Holds p.order k

/-- The spans whose tier disagrees with their heat. -/
def misplaced (c : Counters p) : HeatMap.Misplaced where
  demote := (c.entries.filter fun e => e.2.fast && e.2.heat ≤ p.freezing).map Prod.fst
  promote := (c.entries.filter fun e => !e.2.fast && p.boiling ≤ e.2.heat).map Prod.fst

end Counters

/-! ## Calls to counters -/

/-- The replies are the same, lists of spans up to their order. -/
def MapReply.Agrees : MapReply → MapReply → Prop
  | .frozen (.ok l), .frozen (.ok l') => l.Perm l'
  | .misplaced l, .misplaced l' => l.demote.Perm l'.demote ∧ l.promote.Perm l'.promote
  | r, r' => r = r'

namespace Counters

variable {p : Params}

/-- What a request leaves, and the reply. A refused one leaves everything as it was. -/
def outcome {α : Type} (c : Counters p) (reply : Except Fault α → MapReply) :
    Except Fault (Counters p × α) → Counters p × MapReply
  | .error e => (c, reply (.error e))
  | .ok (c', a) => (c', reply (.ok a))

/-- The reply to an access of a span. No other span is concerned. -/
def accessReply (s : Span) (r : Except Fault Bool) : MapReply :=
  .accessed (r.map fun crossed => (crossed, s))

/-- Serve one call. There is never anything to merge, and what is found holds for all of its
span. -/
def handle (c : Counters p) : MapCall → Counters p × MapReply
  | .change (.access a b d) =>
      let s := Span.between p.order a b
      c.outcome (accessReply s) (c.store s d)
  | .change (.setTier a b fast) =>
      let (c', n) := c.mark (Span.between p.order a b) fast
      (c', .count n)
  | .change (.cool factor) => c.outcome .frozen (c.cool factor)
  | .change (.decay way) => c.outcome .frozen (.ok (c.decay way.left))
  | .change .mergeHot => (c, .count 0)
  | .find k => (c, .found ((c.find? k).map Counter.zone))
  | .findUniform k => (c, .uniform ((c.find? k).map fun e => (Counter.zone e, true)))
  | .misplaced => (c, .misplaced c.misplaced)
  | .live => (c, .count c.entries.length)

/-- Serve calls one after the other. -/
def run (c : Counters p) (cs : List MapCall) : Counters p × List MapReply := runCalls handle c cs

theorem run_cons (c : Counters p) (q : MapCall) (cs : List MapCall) :
    c.run (q :: cs) =
      (((c.handle q).1.run cs).1, (c.handle q).2 :: ((c.handle q).1.run cs).2) := rfl

end Counters

/-- The span of a call that is an access. -/
def MapCall.span? (o : KeyOrder) : MapCall → Option Span
  | .change (.access a b _) => some (Span.between o a b)
  | _ => none

/-- The spans of the accesses among the calls. -/
def accessed (o : KeyOrder) (cs : List MapCall) : List Span := cs.filterMap (MapCall.span? o)

/-- Any two of the spans are the same or have no key in common. -/
abbrev Separate (o : KeyOrder) (spans : List Span) : Prop :=
  ∀ s ∈ spans, ∀ t ∈ spans, s.Same o t ∨ ¬ s.Meets o t

/-! ## Counters as zones -/

/-- A zone as a counter with its span. -/
def Zone.entry (z : Zone) : Span × Counter := (z.span, ⟨z.heat, z.fast⟩)

/-- A change of counters as a change of zones. -/
def Counter.onZone (f : Span → Counter → Option Counter) (z : Zone) : Option Zone :=
  (f z.span z.entry.2).map fun x => Counter.zone (z.span, x)

namespace Counters

variable {p : Params} {c : Counters p} {s : Span}

/-- The counters as zones. -/
def zones (c : Counters p) : List Zone := c.entries.map Counter.zone

/-- The spans that have a counter. -/
def spans (c : Counters p) : List Span := c.entries.map Prod.fst

theorem mem_zones {z : Zone} : z ∈ c.zones ↔ z.entry ∈ c.entries := by
  unfold zones
  rw [List.mem_map]
  constructor
  · rintro ⟨e, he, rfl⟩
    exact he
  · intro he
    exact ⟨z.entry, he, rfl⟩

theorem zones_alter (c : Counters p) (f : Span → Counter → Option Counter) :
    (c.alter f).zones = c.zones.filterMap (Counter.onZone f) := by
  unfold zones alter
  rw [List.map_filterMap, List.filterMap_map]
  congr 1
  funext e
  exact Option.map_map _ _ _

theorem eq_of_same {d e : Span × Counter} (hd : d ∈ c.entries) (he : e ∈ c.entries)
    (h : d.1.Same p.order e.1) : d = e := by
  let Alike (d e : Span × Counter) : Prop := d.1.Same p.order e.1 → d = e
  have hself : ∀ e ∈ c.entries, Alike e e := fun _ _ _ => rfl
  have hforth : c.entries.Pairwise Alike := c.distinct.imp fun hne hsame => absurd hsame hne
  have hback : c.entries.Pairwise (flip Alike) :=
    c.distinct.imp fun hne hsame => absurd (Span.same_comm.mp hsame) hne
  exact List.Pairwise.forall_of_forall_of_flip hself hforth hback hd he h

theorem counter?_eq_none : c.counter? s = none ↔ ∀ e ∈ c.entries, ¬ e.1.Same p.order s := by
  simp [counter?]

theorem counter?_eq_some {e : Span × Counter} :
    c.counter? s = some e ↔ e ∈ c.entries ∧ e.1.Same p.order s := by
  have hfound : ∀ {d}, c.counter? s = some d → d ∈ c.entries ∧ d.1.Same p.order s := by
    intro d hd
    unfold counter? at hd
    have hsame := List.find?_some hd
    exact ⟨List.mem_of_find?_eq_some hd, of_decide_eq_true hsame⟩
  refine ⟨hfound, ?_⟩
  rintro ⟨he, hs⟩
  cases hd : c.counter? s with
  | none => exact absurd hs (counter?_eq_none.mp hd e he)
  | some d =>
      obtain ⟨hmem, hsame⟩ := hfound hd
      rw [eq_of_same hmem he ⟨hsame.1.trans hs.1.symm, hsame.2.trans hs.2.symm⟩]

theorem store_of_none (h : c.counter? s = none) (d : Int) :
    c.store s d =
      if d ≤ 0 then .error (.map (.coldStart d))
      else .ok (c.add s ⟨min d maxHeat, false⟩ h, p.boiling ≤ min d maxHeat) := by
  unfold store
  split
  · rfl
  · next h' =>
      rw [h] at h'
      cases h'

theorem store_of_some {t : Span} {x : Counter} (h : c.counter? s = some (t, x)) (d : Int) :
    c.store s d =
      if d = 0 then .error (.map .noHeat)
      else if maxHeat < x.heat + d then .ok (c, false)
      else .ok (c.set s (if x.heat + d ≤ 0 then none else some { x with heat := x.heat + d }),
        p.crosses x.heat (x.heat + d) x.fast) := by
  unfold store
  split
  · next h' =>
      rw [h] at h'
      cases h'
  · next h' =>
      rw [h] at h'
      cases h'
      rfl

/-! ## No span but the accessed ones has a counter -/

theorem spans_alter {f : Span → Counter → Option Counter} :
    ∀ t ∈ (c.alter f).spans, t ∈ c.spans := by
  intro t ht
  obtain ⟨e, he, rfl⟩ := List.mem_map.mp ht
  obtain ⟨e', he', halter⟩ := List.mem_filterMap.mp he
  obtain ⟨x, -, rfl⟩ := Option.map_eq_some_iff.mp halter
  exact List.mem_map.mpr ⟨e', he', rfl⟩

theorem spans_store {d : Int} {r : Counters p × Bool} (h : c.store s d = .ok r) :
    ∀ t ∈ r.1.spans, t = s ∨ t ∈ c.spans := by
  cases hentry : c.counter? s with
  | none =>
      rw [store_of_none hentry] at h
      split at h
      · cases h
      · cases h
        exact fun t ht => List.mem_cons.mp ht
  | some e =>
      rw [store_of_some hentry] at h
      split at h
      · cases h
      · split at h
        · cases h
          exact fun t ht => Or.inr ht
        · cases h
          exact fun t ht => Or.inr (spans_alter t ht)

theorem spans_outcome {α : Type} {reply : Except Fault α → MapReply}
    {r : Except Fault (Counters p × α)} :
    ∀ t ∈ (c.outcome reply r).1.spans, t ∈ c.spans ∨ ∃ x, r = .ok x ∧ t ∈ x.1.spans := by
  intro t ht
  cases r with
  | error e => exact Or.inl ht
  | ok x => exact Or.inr ⟨x, rfl, ht⟩

theorem spans_handle (q : MapCall) :
    ∀ t ∈ (c.handle q).1.spans, q.span? p.order = some t ∨ t ∈ c.spans := by
  intro t ht
  cases q with
  | find k => exact Or.inr ht
  | findUniform k => exact Or.inr ht
  | misplaced => exact Or.inr ht
  | live => exact Or.inr ht
  | change q =>
      cases q with
      | access a b d =>
          rcases spans_outcome t ht with hold | ⟨x, hx, hnew⟩
          · exact Or.inr hold
          · exact (spans_store hx t hnew).imp (congrArg some ·.symm) id
      | setTier a b fast => exact Or.inr (spans_alter t ht)
      | cool factor =>
          rcases spans_outcome t ht with hold | ⟨x, hx, hnew⟩
          · exact Or.inr hold
          · unfold cool at hx
            split at hx
            · cases hx
              exact Or.inr (spans_alter t hnew)
            · cases hx
      | decay way => exact Or.inr (spans_alter t ht)
      | mergeHot => exact Or.inr ht

end Counters

end TierIndex
