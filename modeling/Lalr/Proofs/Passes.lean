import Lalr.Proofs.LeastLookaheads

/-!
How many passes propagation takes.  An item whose lookahead grows is put on the stack and passes on
what it has got before the flow ends, so an item that has passed on all that it has is in this
condition again after every flow.  One pass has every item pass on what it has, hence a second pass
finds nothing to do, however the links run.
-/

namespace Lalr.Automaton

variable {a b : Automaton}

/-- The lookahead of every item is contained in that of each item it links to. -/
def AtRest (a : Automaton) : Prop :=
  ∀ ⦃r r' : ItemRef⦄ ⦃item item' : Item⦄, a.item r = .ok item → r' ∈ item.links →
    a.item r' = .ok item' → ∀ t ∈ item.lookahead, t ∈ item'.lookahead

theorem WellLinked.atRest_iff (ha : a.WellLinked) : a.AtRest ↔ ∀ r, a.Settled r := by
  constructor
  · intro h r item hitem r' hr'
    obtain ⟨item', hitem'⟩ := ha hitem r' hr'
    exact ⟨item', hitem', h hitem hr' hitem'⟩
  · intro h r r' item item' hitem hr' hitem'
    obtain ⟨target, htarget, hall⟩ := h r item hitem r' hr'
    rw [hitem', Except.ok.injEq] at htarget
    exact htarget ▸ hall

theorem Receives.of_fills {lookahead : TerminalSet} {targets : List ItemRef}
    (h : a.Receives lookahead targets) (hab : a.Fills b) : b.Receives lookahead targets := by
  intro r hr
  obtain ⟨item, hitem, hall⟩ := h r hr
  obtain ⟨item', hitem', -, -, hmono⟩ := hab.item hitem
  exact ⟨item', hitem', fun t ht => hmono t (hall t ht)⟩

/-- Pouring reaches all targets, and the items that did not grow are as they were. -/
theorem pour_receives {lookahead : TerminalSet} {targets grown grown' : List ItemRef}
    (h : pour lookahead targets a grown = ⟨.ok grown', b⟩) :
    b.Receives lookahead targets ∧ (∀ r ∈ grown, r ∈ grown') ∧
      ∀ {r : ItemRef} {item : Item}, b.item r = .ok item → r ∈ grown' ∨ a.item r = .ok item := by
  induction targets generalizing a grown with
  | nil =>
      cases h
      exact ⟨fun _ hr => absurd hr List.not_mem_nil, fun _ hr => hr, .inr⟩
  | cons r targets ih =>
      unfold pour at h
      split at h
      · cases h
      · rename_i item hitem
        simp only at h
        -- The first target has the lookahead by now, and later targets only add to lookaheads.
        have hfirst : ∀ {a' : Automaton}, a'.Receives lookahead [r] → a'.Fills b →
            b.Receives lookahead targets → b.Receives lookahead (r :: targets) := by
          intro a' hr hfills htargets
          exact List.forall_mem_cons.mpr
            ⟨hr.of_fills hfills r (List.mem_singleton_self r), htargets⟩
        split at h
        · obtain ⟨htargets, hkept, hsame⟩ := ih h
          refine ⟨hfirst ?_ (pour_spec (P := fun _ _ => True) h).1 htargets,
            fun r' hr' => hkept r' (List.mem_cons_of_mem r hr'), ?_⟩
          · refine List.forall_mem_singleton.mpr
              ⟨_, item_setLookahead.mpr ⟨item, hitem, rfl⟩, fun t ht => ?_⟩
            simp [ht]
          · intro r' item' hitem'
            refine (hsame hitem').elim .inl fun hset => ?_
            obtain ⟨old, hold, rfl⟩ := item_setLookahead.mp hset
            by_cases hr : r' = r
            · exact .inl (hr ▸ hkept r List.mem_cons_self)
            · rw [if_neg hr]
              exact .inr hold
        · rename_i hgrew
          obtain ⟨htargets, hkept, hsame⟩ := ih h
          refine ⟨hfirst ?_ (pour_spec (P := fun _ _ => True) h).1 htargets, hkept, hsame⟩
          rw [IdentSet.absorb_snd, ne_eq, Decidable.not_not, IdentSet.union_eq_left,
            IdentSet.subset_iff] at hgrew
          exact List.forall_mem_singleton.mpr ⟨item, hitem, hgrew⟩

/-- Whatever has passed on all that it has is still so after pouring, unless it has grown. -/
theorem Settled.of_pour {lookahead : TerminalSet} {targets grown grown' : List ItemRef}
    (h : pour lookahead targets a grown = ⟨.ok grown', b⟩) {r : ItemRef} (hr : a.Settled r) :
    r ∈ grown' ∨ b.Settled r := by
  refine or_iff_not_imp_left.mpr fun hgrown item hitem => ?_
  have hold := ((pour_receives h).2.2 hitem).resolve_left hgrown
  exact (hr item hold).of_fills (pour_spec (P := fun _ _ => True) h).1

/-- After a flow, the items it started from have passed on all that they have, and so have those
that had done so before. -/
theorem flow_settles {changed changed' : Bool} {stack : List ItemRef}
    (h : flow a changed stack = ⟨.ok changed', b⟩) {r : ItemRef} (hr : r ∈ stack ∨ a.Settled r) :
    b.Settled r := by
  fun_induction flow a changed stack with
  | case1 a changed =>
      cases h
      exact hr.resolve_left List.not_mem_nil
  | case2 => cases h
  | case3 => cases h
  | case4 a changed source stack item hitem grown a' hpour ih =>
      apply ih h
      obtain ⟨hreceives, -, hsame⟩ := pour_receives hpour
      -- The invariant: whatever is not settled is waiting on the stack.
      have hsource : source ∈ grown ∨ a'.Settled source := by
        refine or_iff_not_imp_left.mpr fun hgrown item' hitem' => ?_
        have hold := (hsame hitem').resolve_left hgrown
        rw [hitem, Except.ok.injEq] at hold
        exact hold ▸ hreceives
      rcases hr with hr | hr
      · rcases List.mem_cons.mp hr with rfl | hr
        · exact hsource.imp_left (List.mem_append_left stack)
        · exact .inl (List.mem_append_right grown hr)
      · exact (hr.of_pour hpour).imp_left (List.mem_append_left stack)

theorem pass_settles {places : List ItemRef} {changed changed' : Bool}
    (h : pass places a changed = ⟨.ok changed', b⟩) {r : ItemRef} (hr : r ∈ places ∨ a.Settled r) :
    b.Settled r := by
  induction places generalizing a changed with
  | nil =>
      cases h
      exact hr.resolve_left List.not_mem_nil
  | cons source places ih =>
      unfold pass at h
      split at h
      · cases h
      · rename_i changed₁ a' hflow
        apply ih h
        rcases hr with hr | hr
        · rcases List.mem_cons.mp hr with rfl | hr
          · exact .inr (flow_settles hflow (.inl (List.mem_singleton_self _)))
          · exact .inl hr
        · exact .inr (flow_settles hflow (.inr hr))

/-- After one pass over all places nothing is left to do. -/
theorem settled_of_pass {changed changed' : Bool}
    (h : pass a.places a changed = ⟨.ok changed', b⟩) (r : ItemRef) : b.Settled r := by
  intro item hitem
  obtain ⟨old, hold, -⟩ := (pass_spec (P := fun _ _ => True) h).1.of_item hitem
  exact pass_settles h (.inl (mem_places hold)) item hitem

theorem pour_of_receives {lookahead : TerminalSet} {targets : List ItemRef}
    (h : a.Receives lookahead targets) (grown : List ItemRef) :
    pour lookahead targets a grown = ⟨.ok grown, a⟩ := by
  induction targets with
  | nil => rfl
  | cons r targets ih =>
      obtain ⟨⟨item, hitem, hall⟩, htargets⟩ := List.forall_mem_cons.mp h
      have hsame : item.lookahead.absorb lookahead = (item.lookahead, false) := by
        rw [IdentSet.absorb, if_pos (IdentSet.subset_iff.mpr hall)]
      unfold pour
      simp only [hitem, hsame]
      exact ih htargets

theorem flow_of_settled (changed : Bool) {stack : List ItemRef}
    (h : ∀ r ∈ stack, a.Occupied r ∧ a.Settled r) :
    flow a changed stack = ⟨.ok changed, a⟩ := by
  fun_induction flow a changed stack with
  | case1 a changed => rfl
  | case2 a changed r stack e hitem =>
      obtain ⟨⟨item, hitem'⟩, -⟩ := h r List.mem_cons_self
      rw [hitem'] at hitem
      cases hitem
  | case3 a changed r stack item hitem e a' hpour =>
      rw [pour_of_receives ((h r List.mem_cons_self).2 item hitem)] at hpour
      cases hpour
  | case4 a changed r stack item hitem grown a' hpour ih =>
      rw [pour_of_receives ((h r List.mem_cons_self).2 item hitem)] at hpour
      cases hpour
      rw [ih fun r' hr' => h r' (List.mem_cons_of_mem r hr')]
      simp

theorem pass_of_settled (changed : Bool) {places : List ItemRef}
    (h : ∀ r ∈ places, a.Occupied r ∧ a.Settled r) :
    pass places a changed = ⟨.ok changed, a⟩ := by
  induction places with
  | nil => rfl
  | cons r places ih =>
      obtain ⟨hr, hplaces⟩ := List.forall_mem_cons.mp h
      unfold pass
      rw [flow_of_settled changed (List.forall_mem_singleton.mpr hr)]
      exact ih hplaces

theorem passFrom_eq {changed : Bool} (h : pass a.places a false = ⟨.ok changed, b⟩) (n : Nat) :
    passFrom a n =
      if changed then passFrom b (n + 1) else ⟨.ok (n + 1), { b with passes := n + 1 }⟩ := by
  rw [passFrom]
  split
  all_goals
    rename_i h'
    rw [h] at h'
    cases h'
  · rfl
  · rfl

theorem passFrom_of_settled (hsize : a.states.size ≤ 65536) (ha : ∀ r, a.Settled r) (n : Nat) :
    passFrom a n = ⟨.ok (n + 1), { a with passes := n + 1 }⟩ := by
  rw [passFrom_eq (pass_of_settled false fun r hr => ⟨occupied_of_mem_places hsize hr, ha r⟩)]
  rfl

/-- Propagation takes one pass where nothing is left to do and two passes anywhere else, and it
keeps their number.  The next time it takes one. -/
theorem passes_of_propagate (hsize : a.states.size ≤ 65536) (ha : a.WellLinked) :
    ∃ passes b, a.propagate = ⟨.ok passes, b⟩ ∧ b.passes = passes ∧
      (a.AtRest ∧ passes = 1 ∨ ¬ a.AtRest ∧ passes = 2) ∧
      b.propagate = ⟨.ok 1, { b with passes := 1 }⟩ := by
  rw [ha.atRest_iff]
  by_cases hrest : ∀ r, a.Settled r
  · exact ⟨1, { a with passes := 1 }, passFrom_of_settled hsize hrest 0, rfl, .inl ⟨hrest, rfl⟩,
      passFrom_of_settled (a := { a with passes := 1 }) hsize hrest 0⟩
  · obtain ⟨changed, b, hpass⟩ :=
      pass_total false ha fun r hr => occupied_of_mem_places hsize hr
    have hchanged : changed = true := by
      refine Bool.of_not_eq_false fun hfalse => hrest fun r item hitem => ?_
      obtain ⟨-, rfl, hsettled⟩ := (pass_spec (P := fun _ _ => True) hpass).2.2 hfalse
      exact hsettled r (mem_places hitem) item hitem
    rw [hchanged] at hpass
    have hsettled := settled_of_pass hpass
    have hsize' : b.states.size ≤ 65536 :=
      (pass_spec (P := fun _ _ => True) hpass).1.size_eq.trans_le hsize
    refine ⟨2, { b with passes := 2 }, ?_, rfl, .inr ⟨hrest, rfl⟩,
      passFrom_of_settled (a := { b with passes := 2 }) hsize' hsettled 0⟩
    rw [propagate, passFrom_eq hpass, if_pos rfl, passFrom_of_settled hsize' hsettled]

theorem passes_of_propagate_ring :
    ring.states.size ≤ 65536 ∧ ring.WellLinked ∧ ¬ ring.AtRest ∧
    ∃ b, ring.propagate = ⟨.ok 2, b⟩ ∧ b.passes = 2 ∧
      b.propagate = ⟨.ok 1, { b with passes := 1 }⟩ := by
  have hsize : ring.states.size ≤ 65536 := by
    decide
  have hlinked : ring.WellLinked := by
    decide +kernel
  have hbusy : ¬ ring.AtRest := by
    intro h
    have heof := @h ⟨.start, 0⟩ ⟨.start, 1⟩ _ _ rfl (by decide) rfl TerminalId.eof
      (by decide)
    exact absurd heof (by decide)
  obtain ⟨passes, b, hpropagate, hpasses, hcount, hagain⟩ :=
    passes_of_propagate hsize hlinked
  obtain ⟨-, rfl⟩ := hcount.resolve_left fun h => hbusy h.1
  exact ⟨hsize, hlinked, hbusy, b, hpropagate, hpasses, hagain⟩

/-- A set of one item that is linked to the first item of the first state. -/
def sender : ItemSet :=
  (ItemSet.empty.add (.initial (.nth 1) (.single (.nth 1)))).1.addLink 0 ⟨.start, 0⟩

/-- With more states than numbers one pass can be all although something is left to do.  The last of
these states is taken for the first one, so that its own item never passes its lookahead on. -/
theorem passes_apart :
    (∀ q ∈ (apart 65535 lone sender).states, ∀ item ∈ q.items.items, ∀ r ∈ item.links,
      (apart 65535 lone sender).Occupied r) ∧
    (∃ q ∈ (apart 65535 lone sender).states, ∃ item ∈ q.items.items, ∃ r ∈ item.links,
      ∃ target, (apart 65535 lone sender).item r = .ok target ∧
        ∃ t ∈ item.lookahead, t ∉ target.lookahead) ∧
    (apart 65535 lone sender).propagate.outcome = .ok 1 := by
  obtain ⟨target, htarget, hlinks, hlookahead⟩ :
      ∃ target, (apart 65535 lone sender).item ⟨.start, 0⟩ = .ok target ∧ target.links = [] ∧
        .nth 1 ∉ target.lookahead :=
    ⟨_, item_apart rfl, rfl, by decide⟩
  have hfirst : (apart 65535 lone sender).Occupied ⟨.start, 0⟩ := ⟨target, htarget⟩
  refine ⟨?_, ?_, ?_⟩
  · intro q hq item hitem r hr
    have hall : ∀ s ∈ [lone, .empty, sender], ∀ item ∈ s.items, ∀ r ∈ item.links,
        r = ⟨.start, 0⟩ := by
      decide
    rw [hall q.items (mem_states_apart _ _ _ hq) item hitem r hr]
    exact hfirst
  · have hlast : ⟨.start, sender, 0, []⟩ ∈ (apart 65535 lone sender).states := by
      simp [apart]
    exact ⟨_, hlast, _, Array.getElem_mem (show 0 < sender.items.size by decide), _,
      List.mem_singleton_self _, target, htarget, .nth 1, by decide, hlookahead⟩
  · have hplaces : (apart 65535 lone sender).places = [⟨.start, 0⟩, ⟨.start, 0⟩] := by
      rw [places_apart]
      rfl
    have hpass : pass (apart 65535 lone sender).places (apart 65535 lone sender) false =
        ⟨.ok false, apart 65535 lone sender⟩ := by
      rw [hplaces]
      refine pass_of_settled false fun r hr => ?_
      obtain rfl : r = ⟨.start, 0⟩ := by simpa using hr
      refine ⟨hfirst, fun item hitem r hr => ?_⟩
      rw [htarget, Except.ok.injEq] at hitem
      rw [← hitem, hlinks] at hr
      cases hr
    rw [propagate, passFrom_eq hpass]
    rfl

end Lalr.Automaton
