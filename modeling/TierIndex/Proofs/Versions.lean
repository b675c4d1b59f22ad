import TierIndex.Proofs.Calls
import TierIndex.Proofs.PlacerView

set_option autoImplicit false

/-! # Version bytes do not count

Under a versioned order nothing that a heat map or a placer does depends on the version bytes of the
keys. A run under such an order and the run under the bytewise order on the views of the keys go
along step by step: the second one is the view of the first, with the same slots, counts, heats and
tiers, the same failures and flags, and in every key that is kept, replied or sent the view of the
key of the first one (`HeatMap.run_view`, `Session.run_view`). So two runs whose keys differ in
their version bytes only cannot be told apart but by the version bytes of the keys that they keep.

The view of a session is that of its placer; the data directory, which holds keys with all their
bytes, is left out, and so are the requests that go to it.
-/

namespace TierIndex

/-! ## Calls and replies on views -/

/-- The request with the views of its keys. -/
def MapRequest.view (o : KeyOrder) : MapRequest → MapRequest
  | .access a b d => .access (o.view a) (o.view b) d
  | .setTier a b fast => .setTier (o.view a) (o.view b) fast
  | .cool factor => .cool factor
  | .decay c => .decay c
  | .mergeHot => .mergeHot

/-- The call with the views of its keys. -/
def MapCall.view (o : KeyOrder) : MapCall → MapCall
  | .change q => .change (q.view o)
  | .find k => .find (o.view k)
  | .findUniform k => .findUniform (o.view k)
  | .misplaced => .misplaced
  | .live => .live

/-- The reply with the views of its keys. -/
def MapReply.view (o : KeyOrder) : MapReply → MapReply
  | .accessed r => .accessed (r.map fun x => (x.1, x.2.view o))
  | .count n => .count n
  | .frozen r => .frozen (r.map (List.map (Span.view o)))
  | .found z => .found (z.map (Zone.view o))
  | .uniform r => .uniform (r.map fun x => (x.1.view o, x.2))
  | .misplaced l => .misplaced (l.view o)

namespace HeatMap

variable {m : HeatMap} {o : KeyOrder}

theorem serve_view (ho : m.order = o) (q : MapRequest) :
    m.view.serve (q.view o) = (m.serve q).view := by
  subst ho
  cases q with
  | access a b d =>
      have hacc := access_view m d a b
      unfold serve MapRequest.view
      dsimp only
      rw [hacc]
      cases m.access a b d <;> rfl
  | setTier a b fast => exact congrArg Prod.fst (setTier_view m a b fast)
  | cool factor =>
      have hcool := cool_view m factor
      unfold serve MapRequest.view
      dsimp only
      rw [hcool]
      cases m.cool factor <;> rfl
  | decay c => exact congrArg Prod.fst (decayBy_view m c.left)
  | mergeHot => exact congrArg Prod.fst (mergeHot_view m)

theorem reply_view (ho : m.order = o) (c : MapCall) :
    m.view.reply (c.view o) = (m.reply c).view o := by
  subst ho
  cases c with
  | find k => exact congrArg MapReply.found (find?_view m k)
  | findUniform k => exact congrArg MapReply.uniform (findUniform?_view m k)
  | misplaced => exact congrArg MapReply.misplaced (misplaced_view m)
  | live => rfl
  | change q =>
      cases q with
      | access a b d =>
          have hacc := access_view m d a b
          unfold reply MapCall.view MapRequest.view
          dsimp only
          rw [hacc]
          cases m.access a b d <;> rfl
      | setTier a b fast =>
          have hset := setTier_view m a b fast
          exact congrArg (fun r => MapReply.count r.2) hset
      | cool factor =>
          have hcool := cool_view m factor
          unfold reply MapCall.view MapRequest.view
          dsimp only
          rw [hcool]
          cases m.cool factor <;> rfl
      | decay c =>
          exact congrArg (fun l => MapReply.frozen (.ok l))
            (congrArg Prod.snd (decayBy_view m c.left))
      | mergeHot =>
          have hmerge := mergeHot_view m
          exact congrArg (fun r => MapReply.count r.2) hmerge

theorem after_view (ho : m.order = o) (c : MapCall) :
    m.view.after (c.view o) = (m.after c).view := by
  cases c with
  | change q => exact serve_view ho q
  | find k => rfl
  | findUniform k => rfl
  | misplaced => rfl
  | live => rfl

/-- **A run of the view is the view of the run.** -/
theorem run_view (h : m.Intact) (ho : m.order = o) (cs : List MapCall) :
    m.view.run (cs.map (MapCall.view o)) =
      ((m.run cs).1.view, (m.run cs).2.map (MapReply.view o)) := by
  induction cs generalizing m with
  | nil => rfl
  | cons c cs ih =>
      have hrest := ih (h.after c) ((after_order h c).trans ho)
      rw [List.map_cons, run_cons, after_view ho, reply_view ho, hrest, run_cons]
      rfl

end HeatMap

/-! ## Sessions -/

/-- The session with the view of its placer. -/
def Session.view (o : KeyOrder) (σ : Session) : Session := { σ with placer := σ.placer.view o }

/-- The request is served by the placer alone, without the data directory. -/
def Request.inMemory : Request → Bool
  | .save | .load | .restart | .arrange _ => false
  | _ => true

/-- The request with the views of its keys. -/
def Request.view (o : KeyOrder) : Request → Request
  | .record a b d => .record (o.view a) (o.view b) d
  | .setTier a b fast => .setTier (o.view a) (o.view b) fast
  | .belongsFast k => .belongsFast (o.view k)
  | .lookup k => .lookup (o.view k)
  | q => q

/-- The reply with the views of its keys. -/
def Reply.view (o : KeyOrder) : Reply → Reply
  | .moves vs => .moves (vs.map (List.map (Move.view o)))
  | r => r

namespace Session

variable {o : KeyOrder} {s : Settings} {σ : Session}

theorem advance_view {α : Type} {step : Placer × α} {step' : Placer × α} {reply : α → Reply}
    (hreply : ∀ x, (reply x).view o = reply x) (h : step' = (step.1.view o, step.2)) :
    (σ.view o).advance step' reply =
      ((σ.advance step reply).1.view o, (σ.advance step reply).2.view o) := by
  subst h
  exact Prod.ext rfl (hreply step.2).symm

theorem handle_view (ho : σ.placer.order = o) {q : Request} (hq : q.inMemory = true) :
    (σ.view o).handle (q.view o) = ((σ.handle q).1.view o, (σ.handle q).2.view o) := by
  have hunit : ∀ r, (Reply.ofUnit r).view o = Reply.ofUnit r := by
    intro r
    cases r <;> rfl
  have hflag : ∀ r, (Reply.ofFlag r).view o = Reply.ofFlag r := by
    intro r
    cases r <;> rfl
  have hcount : ∀ r, (Reply.ofCount r).view o = Reply.ofCount r := by
    intro r
    cases r <;> rfl
  cases q with
  | record a b d => exact advance_view hunit (Placer.record_view ho a b d)
  | setTier a b fast => exact advance_view (fun _ => rfl) (Placer.setTier_view ho a b fast)
  | tick => exact advance_view hflag (Placer.tick_view ho)
  | cool factor => exact advance_view hcount (Placer.cool_view ho factor)
  | mergeHot => exact advance_view (fun _ => rfl) Placer.mergeHot_view
  | flush => exact advance_view (fun _ => rfl) (Placer.flush_view ho)
  | belongsFast k => exact advance_view (fun _ => rfl) (Placer.belongsFast_view ho k)
  | lookup k =>
      have hlookup := σ.placer.memo.lookup_view o k
      rw [← ho] at hlookup ⊢
      exact congrArg (fun b => (σ.view σ.placer.order, Reply.remembered b)) hlookup
  | take n =>
      have htake := σ.placer.outlet.take_view o n
      exact congrArg
        (fun r => (Session.mk { σ.placer.view o with outlet := r.1 } σ.folder, Reply.moves r.2))
        htake
  | disconnect =>
      have hgone := σ.placer.outlet.disconnect_view o
      exact congrArg
        (fun outlet => (Session.mk { σ.placer.view o with outlet } σ.folder, Reply.done)) hgone
  | save => cases hq
  | load => cases hq
  | restart => cases hq
  | arrange f => cases hq

/-- **A run of the view is the view of the run.** -/
theorem run_view (h : σ.placer.Coherent o s) {qs : List Request}
    (hqs : ∀ q ∈ qs, q.inMemory = true) :
    (σ.view o).run (qs.map (Request.view o)) =
      ((σ.run qs).1.view o, (σ.run qs).2.map (Reply.view o)) := by
  induction qs generalizing σ with
  | nil => rfl
  | cons q qs ih =>
      have hrest := ih (handle_coherent h q) fun q' hq' => hqs q' (List.mem_cons_of_mem q hq')
      rw [List.map_cons, run, handle_view h.order_eq (hqs q List.mem_cons_self)]
      dsimp only
      rw [hrest]
      rfl

end Session

/-! ## Runs without version bytes -/

namespace HeatMap

theorem run_empty_view {p : Params} {o : KeyOrder} (hp : p.order = o) (cs : List MapCall) :
    (empty { p with order := .bytewise }).run (cs.map (MapCall.view o)) =
      (((empty p).run cs).1.view, ((empty p).run cs).2.map (MapReply.view o)) := by
  rw [← empty_view]
  exact run_view (Intact.empty p) hp cs

end HeatMap

/-- **Version bytes do not count.** Take any order, and so the versioned one of any version length.
A heat map that is asked for anything from its start goes along with the bytewise map that is asked
for the same with the views of the keys: every reply of the second is the view of the reply of the
first, and so is the map that is left. The same holds of a placer, whatever its settings and
wherever its moves go, for all that it does in memory; and a placer that cannot be made fails alike.
So two runs that differ in version bytes only have the same views of their states and of their
replies after every step. -/
theorem version_bytes_do_not_count (o : KeyOrder) :
    (∀ p : Params, p.order = o → ∀ cs : List MapCall,
      (HeatMap.empty { p with order := .bytewise }).run (cs.map (MapCall.view o)) =
        (((HeatMap.empty p).run cs).1.view, ((HeatMap.empty p).run cs).2.map (MapReply.view o))) ∧
    (∀ s out, Placer.new .bytewise s (out.view o) = (Placer.new o s out).map (Placer.view o)) ∧
    (∀ s out p f, Placer.new o s out = .ok p →
      ∀ qs : List Request, (∀ q ∈ qs, q.inMemory = true) →
        Session.run ⟨p.view o, f⟩ (qs.map (Request.view o)) =
          ((Session.run ⟨p, f⟩ qs).1.view o, (Session.run ⟨p, f⟩ qs).2.map (Reply.view o))) ∧
    (∀ p : Params, p.order = o → ∀ cs cs' : List MapCall,
      cs.map (MapCall.view o) = cs'.map (MapCall.view o) →
        ((HeatMap.empty p).run cs).1.view = ((HeatMap.empty p).run cs').1.view ∧
        ((HeatMap.empty p).run cs).2.map (MapReply.view o) =
          ((HeatMap.empty p).run cs').2.map (MapReply.view o)) ∧
    (∀ s out p f, Placer.new o s out = .ok p →
      ∀ qs qs' : List Request, (∀ q ∈ qs, q.inMemory = true) → (∀ q ∈ qs', q.inMemory = true) →
        qs.map (Request.view o) = qs'.map (Request.view o) →
          (Session.run ⟨p, f⟩ qs).1.view o = (Session.run ⟨p, f⟩ qs').1.view o ∧
          (Session.run ⟨p, f⟩ qs).2.map (Reply.view o) =
            (Session.run ⟨p, f⟩ qs').2.map (Reply.view o)) := by
  refine ⟨fun p hp cs => HeatMap.run_empty_view hp cs, Placer.new_view o, ?_, ?_, ?_⟩
  · intro s out p f hp qs hqs
    exact Session.run_view (σ := ⟨p, f⟩) (Placer.new_coherent hp) hqs
  · -- both runs have the run of the views as their view
    intro p hp cs cs' hsame
    have hrun := HeatMap.run_empty_view hp cs
    rw [hsame, HeatMap.run_empty_view hp cs'] at hrun
    obtain ⟨hmap, hreplies⟩ := Prod.mk.inj hrun
    exact ⟨hmap.symm, hreplies.symm⟩
  · intro s out p f hp qs qs' hqs hqs' hsame
    have hcoherent := Placer.new_coherent hp
    have hrun := Session.run_view (σ := ⟨p, f⟩) hcoherent hqs
    rw [hsame, Session.run_view (σ := ⟨p, f⟩) hcoherent hqs'] at hrun
    obtain ⟨hsession, hreplies⟩ := Prod.mk.inj hrun
    exact ⟨hsession.symm, hreplies.symm⟩

/-- Two maps split the same two zones, and two placers send the same move. Other version bytes stand
in the keys, and nothing else differs. -/
theorem version_bytes_do_not_count_split :
    let p : Params := ⟨.versioned 1, 2, 10, 3, .lowest, by decide, by decide, by decide, by decide⟩
    let cs : List MapCall :=
      [.change (.access [1, 7] [5, 7] 20), .change (.access [3, 7] [9, 7] 30)]
    let cs' : List MapCall :=
      [.change (.access [1, 4] [5, 6] 20), .change (.access [3, 8] [9, 2] 30)]
    let s : Settings := { target := 2 }
    let q : Placer := ⟨s, .empty p, .empty, .start 10, .ledger []⟩
    let qs : List Request := [.record [1, 7] [5, 7] 20, .belongsFast [2, 7]]
    let qs' : List Request := [.record [1, 4] [5, 6] 20, .belongsFast [2, 1]]
    (((HeatMap.empty p).run cs).1.zones =
        [⟨⟨[1, 7], [3, 7]⟩, 20, false⟩, ⟨⟨[5, 7], [9, 7]⟩, 30, false⟩,
          ⟨⟨[3, 7], [5, 7]⟩, 50, false⟩] ∧
      ((HeatMap.empty p).run cs').1.zones =
        [⟨⟨[1, 4], [3, 8]⟩, 20, false⟩, ⟨⟨[5, 6], [9, 2]⟩, 30, false⟩,
          ⟨⟨[3, 8], [5, 6]⟩, 50, false⟩] ∧
      ((HeatMap.empty p).run cs).1.view = ((HeatMap.empty p).run cs').1.view) ∧
    ((Session.run ⟨q, .missing⟩ qs).1.placer.outlet.recorded = [⟨⟨[1, 7], [5, 7]⟩, true⟩] ∧
      (Session.run ⟨q, .missing⟩ qs').1.placer.outlet.recorded = [⟨⟨[1, 4], [5, 6]⟩, true⟩] ∧
      (Session.run ⟨q, .missing⟩ qs).1.view (.versioned 1) =
        (Session.run ⟨q, .missing⟩ qs').1.view (.versioned 1)) := by
  intro p cs cs' s q qs qs'
  have hq : Placer.new (.versioned 1) s (.ledger []) = .ok q :=
    Placer.new_eq_ok (by decide +kernel) rfl _
  have hcalls : cs.map (MapCall.view (.versioned 1)) = cs'.map (MapCall.view (.versioned 1)) := rfl
  have hrequests : qs.map (Request.view (.versioned 1)) = qs'.map (Request.view (.versioned 1)) :=
    rfl
  obtain ⟨-, -, -, hmaps, hplacers⟩ := version_bytes_do_not_count (.versioned 1)
  refine ⟨⟨by decide, by decide, (hmaps p rfl cs cs' hcalls).1⟩, by decide, by decide, ?_⟩
  exact (hplacers s (.ledger []) q .missing hq qs qs' (by decide) (by decide) hrequests).1

end TierIndex
