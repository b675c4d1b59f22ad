set_option autoImplicit false

/-! # Choosing one of many

Several rules of the heat map choose one zone out of a list: the hottest, the one that
starts first, the one with the smallest union. All of them go through `leftmostBest`: the
best by a comparison, and of equally good ones the one that stands first.
-/

namespace TierIndex

universe u

variable {α : Type u}

/-- The leftmost element of a list that no other one beats, for a comparison `beats` that
is a strict weak order. -/
def leftmostBest (beats : α → α → Bool) : List α → Option α
  | [] => none
  | a :: l =>
      match leftmostBest beats l with
      | none => some a
      | some b => if beats b a then some b else some a

theorem leftmostBest_eq_none {beats : α → α → Bool} {l : List α} :
    leftmostBest beats l = none ↔ l = [] := by
  cases l with
  | nil => simp [leftmostBest]
  | cons a l =>
      cases h : leftmostBest beats l <;> simp [leftmostBest, h]
      split <;> simp

theorem leftmostBest_mem {beats : α → α → Bool} {l : List α} {a : α}
    (h : leftmostBest beats l = some a) : a ∈ l := by
  induction l generalizing a with
  | nil => simp [leftmostBest] at h
  | cons b l ih =>
      cases hl : leftmostBest beats l with
      | none =>
          have : b = a := by simpa [leftmostBest, hl] using h
          subst this
          exact List.mem_cons_self
      | some c =>
          by_cases hc : beats c b = true
          · have : c = a := by simpa [leftmostBest, hl, hc] using h
            subst this
            exact List.mem_cons_of_mem b (ih hl)
          · have : b = a := by simpa [leftmostBest, hl, hc] using h
            subst this
            exact List.mem_cons_self

/-- The chosen element beats every element that stands before it. -/
theorem leftmostBest_split {beats : α → α → Bool} {l : List α} {a : α}
    (h : leftmostBest beats l = some a) :
    ∃ l₁ l₂, l = l₁ ++ a :: l₂ ∧ ∀ b ∈ l₁, beats a b = true := by
  induction l generalizing a with
  | nil => simp [leftmostBest] at h
  | cons b l ih =>
      cases hl : leftmostBest beats l with
      | none =>
          have : b = a := by simpa [leftmostBest, hl] using h
          subst this
          exact ⟨[], l, rfl, by simp⟩
      | some c =>
          by_cases hc : beats c b = true
          · have : c = a := by simpa [leftmostBest, hl, hc] using h
            subst this
            obtain ⟨l₁, l₂, hsplit, hbeats⟩ := ih hl
            refine ⟨b :: l₁, l₂, by rw [hsplit]; rfl, ?_⟩
            intro e he
            rcases List.mem_cons.mp he with rfl | he
            · exact hc
            · exact hbeats e he
          · have : b = a := by simpa [leftmostBest, hl, hc] using h
            subst this
            exact ⟨[], l, rfl, by simp⟩

/-- A strict weak order: no two elements beat each other, and a third element cannot stand
apart from two of which one beats the other. -/
structure Ranking (beats : α → α → Bool) : Prop where
  asymm : ∀ a b, beats a b = true → beats b a = false
  strict : ∀ a b c, beats a b = true → beats a c = true ∨ beats c b = true

theorem Ranking.irrefl {beats : α → α → Bool} (hr : Ranking beats) (a : α) :
    beats a a = false := by
  cases h : beats a a with
  | false => rfl
  | true => exact absurd h (by simp [hr.asymm a a h])

/-- Nothing in the list beats the chosen element. -/
theorem leftmostBest_unbeaten {beats : α → α → Bool} (hr : Ranking beats) {l : List α} {a : α}
    (h : leftmostBest beats l = some a) : ∀ b ∈ l, beats b a = false := by
  induction l generalizing a with
  | nil => simp
  | cons c l ih =>
      intro b hb
      cases hl : leftmostBest beats l with
      | none =>
          have : c = a := by simpa [leftmostBest, hl] using h
          subst this
          have : b = c := by simpa [leftmostBest_eq_none.mp hl] using hb
          subst this
          exact hr.irrefl b
      | some d =>
          by_cases hd : beats d c = true
          · have : d = a := by simpa [leftmostBest, hl, hd] using h
            subst this
            rcases List.mem_cons.mp hb with rfl | hb
            · exact hr.asymm d b hd
            · exact ih hl b hb
          · have : c = a := by simpa [leftmostBest, hl, hd] using h
            subst this
            rcases List.mem_cons.mp hb with rfl | hb
            · exact hr.irrefl b
            · cases hbc : beats b c with
              | false => rfl
              | true =>
                  -- `b` would beat `c`, which the best of the rest does not
                  have hbd := ih hl b hb
                  rcases hr.strict b c d hbc with h' | h'
                  · exact absurd h' (by simp [hbd])
                  · exact absurd h' hd

end TierIndex
