import Lalr.Proofs.Lookaheads

namespace Lalr

variable {g : Grammar}

theorem Item.nodup_addLink {item : Item} (h : item.links.Nodup) (target : ItemRef) :
    (item.addLink target).links.Nodup := by
  unfold Item.addLink
  split
  · exact h
  · rename_i hnew
    rw [List.nodup_append]
    refine ⟨h, List.pairwise_singleton _ _, ?_⟩
    rintro r hr r' hr' rfl
    exact hnew (List.mem_singleton.mp hr' ▸ hr)

namespace ItemSet

/-- No item has a link twice. -/
def Distinct (s : ItemSet) : Prop :=
  ∀ ⦃slot : Nat⦄ ⦃item : Item⦄, s.items[slot]? = some item → item.links.Nodup

variable {s s' : ItemSet} {owner : StateId}

theorem Distinct.add (h : s.Distinct) (p : ProductionId) (lookahead : TerminalSet) :
    (s.add (.initial p lookahead)).1.Distinct := by
  intro slot item hitem
  rcases getElem?_add hitem with rfl | ⟨old, hold, -, hlinks, -⟩
  · exact List.nodup_nil
  · exact hlinks ▸ h hold

theorem Distinct.addLink (h : s.Distinct) (slot : Nat) (target : ItemRef) :
    (s.addLink slot target).Distinct := by
  intro j item hitem
  rw [getElem?_addLink] at hitem
  split at hitem
  · obtain ⟨old, hold, rfl⟩ := Option.map_eq_some_iff.mp hitem
    exact Item.nodup_addLink (h hold) target
  · exact h hitem

theorem Distinct.addLinks (h : s.Distinct) (targets : Array (Option ItemRef)) :
    (s.addLinks targets).Distinct := by
  intro slot item hitem
  rw [getElem?_addLinks] at hitem
  obtain ⟨old, hold, rfl⟩ := Option.map_eq_some_iff.mp hitem
  rcases targets[slot]?.join with _ | target
  · exact h hold
  · exact Item.nodup_addLink (h hold) target

theorem Distinct.predict (h : s.Distinct) (slot : Nat) (lookahead : TerminalSet) (linked : Bool)
    (ps : List ProductionId) (pending : List Nat) :
    (predict owner slot lookahead linked ps s pending).1.Distinct := by
  induction ps generalizing s pending with
  | nil => exact h
  | cons p ps ih =>
      rw [predict_cons]
      apply ih
      unfold predictOne
      split
      · exact (h.add p lookahead).addLink slot _
      · exact h.add p lookahead

theorem Distinct.closeFrom {pending : List Nat} (hs : s.Distinct)
    (h : s.closeFrom g owner pending = ⟨.ok (), s'⟩) : s'.Distinct := by
  fun_induction ItemSet.closeFrom g owner s pending with
  | case1 s =>
      cases h
      exact hs
  | case2 s slot pending hnone ih => exact ih hs h
  | case3 s slot pending item hitem hunknown => cases h
  | case4 s slot pending item hitem production hproduction n hsymbol lookahead vanishes hfirst
      closed ih => exact ih (hs.predict slot lookahead vanishes (g.productionsOf n) pending) h
  | case5 s slot pending item hitem production hproduction hsymbol ih => exact ih hs h

end ItemSet

theorem State.Holds.exists_find? {q : State} {γ : List Symbol} (hγ : q.Holds g γ) {c : ItemCore}
    (hc : g.ValidItem γ c) : ∃ slot, q.items.find? c = some slot := by
  obtain ⟨slot, item, hitem, hcore⟩ := ItemSet.mem_cores.mp ((hγ c).mpr hc)
  exact ⟨slot, ItemSet.find?_eq_some.mpr ⟨item, hitem, hcore⟩⟩

namespace Automaton

variable {a b : Automaton}

theorem IsBase.distinct {s : ItemSet} (h : IsBase s) : s.Distinct := by
  intro slot item hitem
  have hlinks : item.links = [] := by
    rcases h with rfl | ⟨hbare, -⟩
    · have hmem := Array.mem_of_getElem? hitem
      rw [startItems_items, List.mem_toArray, List.mem_singleton] at hmem
      exact hmem ▸ rfl
    · exact (hbare hitem).2
  exact hlinks ▸ List.nodup_nil

/-- The items of every state are what closing makes of a base set, with the state as owner. -/
def ClosedBases (g : Grammar) (a : Automaton) : Prop :=
  ∀ ⦃i : Nat⦄ ⦃q : State⦄, a.states[i]? = some q →
    ∃ s, IsBase s ∧ s.close g q.id = ⟨.ok (), q.items⟩

theorem isBase_of_shiftOver {items : List Item} {symbol : Symbol} {s : ItemSet}
    (h : ItemSet.shiftOver g symbol ∅ items = .ok s) : IsBase s := by
  obtain ⟨hbare, hmem⟩ := ItemSet.shiftOver_ok h ItemSet.bare_empty
  refine .inr ⟨hbare, fun c hc => ?_⟩
  obtain ⟨d, -, rest, -, rfl⟩ := ((hmem c).mp hc).resolve_left List.not_mem_nil
  exact Nat.succ_ne_zero _

theorem ClosedBases.enter (ha : a.ClosedBases g) {s : ItemSet} (hs : IsBase s) {r : StateId}
    {isNew : Bool} (h : a.enter g s = .ok (b, r, isNew)) : b.ClosedBases g := by
  rcases enter_cases h with ⟨rfl, -⟩ | ⟨closed, -, -, -, hclose, hr, hstates, -⟩
  · exact ha
  · intro i q hq
    rcases getElem?_of_push hstates hr hq with hq | ⟨-, rfl⟩
    · exact ha hq
    · exact ⟨s, hs, hclose⟩

theorem ClosedBases.enterAll (ha : a.ClosedBases g) {items : List Item} {symbols : List Symbol}
    {before after : Array (Symbol × StateId)} {added added' : List StateId}
    (h : enterAll g items symbols a before added = .ok (b, after, added')) : b.ClosedBases g := by
  induction symbols generalizing a before added with
  | nil =>
      cases h
      exact ha
  | cons symbol symbols ih =>
      unfold Automaton.enterAll at h
      split at h
      · cases h
      · rename_i s hshift
        split at h
        · cases h
        · rename_i henter
          exact ih (ha.enter (isBase_of_shiftOver hshift) henter) h

theorem ClosedBases.expand (ha : a.ClosedBases g) {r : StateId} {added : List StateId}
    (h : a.expand g r = .ok (b, added)) : b.ClosedBases g := by
  unfold Automaton.expand at h
  split at h
  · cases h
  · simp only at h
    split at h
    · cases h
    · split at h
      · cases h
      · rename_i hall
        cases h
        intro i q hq
        obtain ⟨q', hq', ⟨-, rfl⟩ | ⟨-, rfl⟩⟩ := exists_of_setTransitions hq
        · exact ha.enterAll hall hq'
        · exact ha.enterAll hall (q := q') hq'

theorem ClosedBases.explore (ha : a.ClosedBases g) {pending : List StateId}
    (h : a.explore g pending = .ok b) : b.ClosedBases g := by
  fun_induction Automaton.explore g a pending with
  | case1 a =>
      cases h
      exact ha
  | case2 a r pending e hexpand => cases h
  | case3 a r pending a' added hexpand ih => exact ih (ha.expand hexpand) h

theorem closedBases_of_reach (h : reach g = .ok a) : a.ClosedBases g := by
  unfold reach at h
  split at h
  · cases h
  · rename_i a₀ start isNew henter
    have hempty : empty.ClosedBases g := by
      intro i q hq
      simp [empty] at hq
    exact (hempty.enter (.inl rfl) henter).explore h

theorem distinct_of_link (hreach : reach g = .ok a) (h : a.link g = .ok b) {i : Nat} {q : State}
    (hq : b.states[i]? = some q) : q.items.Distinct := by
  obtain ⟨q₀, hq₀, hok⟩ := exists_of_link h hq
  obtain ⟨s, hs, hclose⟩ := closedBases_of_reach hreach hq₀
  obtain ⟨successors, -, rfl⟩ := linkState_eq_ok.mp hok
  exact (hs.distinct.closeFrom hclose).addLinks successors

theorem not_feeds_of_atEnd {q : State} {c d : ItemCore} {r : StateId} (h : g.after c = []) :
    ¬ q.Feeds g c r d := by
  rintro (⟨-, n, rest, p, rhs, hafter, -⟩ | ⟨symbol, rest, hafter, -⟩)
  · rw [h] at hafter
    cases hafter
  · rw [h] at hafter
    cases hafter

theorem feeds_iff {q : State} {c d : ItemCore} {r : StateId} {symbol : Symbol} {rest : List Symbol}
    (h : g.after c = symbol :: rest) : q.Feeds g c r d ↔
      (q.transition? symbol = some r ∧ d = c.advance) ∨
      (r = q.id ∧ g.Vanishes rest ∧ ∃ n p rhs, symbol = .nonterminal n ∧ g.HasRule p n rhs ∧
        d = ⟨p, 0⟩) := by
  constructor
  · rintro (⟨hr, n, rest', p, rhs, hafter, hv, hp, hd⟩ | ⟨symbol', rest', hafter, hr, hd⟩)
    · obtain ⟨rfl, rfl⟩ := List.cons.inj (h.symm.trans hafter)
      exact .inr ⟨hr, hv, n, p, rhs, rfl, hp, hd⟩
    · obtain ⟨rfl, rfl⟩ := List.cons.inj (h.symm.trans hafter)
      exact .inl ⟨hr, hd⟩
  · rintro (⟨hr, hd⟩ | ⟨hr, hv, n, p, rhs, rfl, hp, hd⟩)
    · exact .inr ⟨symbol, rest, h, hr, hd⟩
    · exact .inl ⟨hr, n, rest, p, rhs, h, hv, hp, hd⟩

theorem Linked.mem_links_iff (ha : a.Linked g) (hab : a.Fills b) {i slot : Nat} {q : State}
    {item : Item} (hq : b.states[i]? = some q) (hitem : q.items.items[slot]? = some item)
    {r : ItemRef} : r ∈ item.links ↔
      ∃ target, b.item r = .ok target ∧ q.Feeds g item.core r.state target.core := by
  obtain ⟨q₀, item₀, hq₀, hslot₀, hlinks, hsame⟩ := ha.of_fills hab hq hitem
  simp only [hlinks, hsame]
  constructor
  · intro hr
    obtain ⟨target, htarget, hfeeds⟩ := ha.link hq₀ hslot₀ hr
    obtain ⟨target', htarget', hcore', -⟩ := hab.item htarget
    exact ⟨target', htarget', hcore' ▸ hfeeds⟩
  · rintro ⟨target', htarget', hfeeds⟩
    obtain ⟨slot', target, htarget, hcore', hlink⟩ := ha.linked hq₀ hslot₀ hfeeds
    -- The link leads to an item with this core, and its state has only one.
    obtain ⟨target₀, htarget₀, hcore₀, -⟩ := hab.of_item htarget'
    obtain ⟨q₁, hq₁, hslot₁⟩ := item_eq_ok.mp htarget
    obtain ⟨q₂, hq₂, hslot₂⟩ := item_eq_ok.mp htarget₀
    rw [hq₁, Option.some.injEq] at hq₂
    subst hq₂
    obtain rfl : slot' = r.slot := ItemSet.slot_inj hslot₁ hslot₂ (hcore'.trans hcore₀)
    exact hlink

theorem exists_item_iff {r : ItemRef} {c : ItemCore} :
    (∃ item, a.item r = .ok item ∧ item.core = c) ↔
      ∃ q, a.state r.state = .ok q ∧ q.items.find? c = some r.slot := by
  simp only [item_eq_ok, state_eq_ok, ItemSet.find?_eq_some]
  constructor
  · rintro ⟨item, ⟨q, hq, hitem⟩, hcore⟩
    exact ⟨q, hq, item, hitem, hcore⟩
  · rintro ⟨q, hq, item, hitem, hcore⟩
    exact ⟨item, ⟨q, hq, hitem⟩, hcore⟩

/-- The links of an item of state `q` are those of inheritance: one to the item with the mark moved,
and one to each item that it predicts if all behind the predicted nonterminal can vanish. -/
structure ExactLinks (g : Grammar) (a : Automaton) (q : State) (item : Item) : Prop where
  nodup : item.links.Nodup
  atEnd : g.after item.core = [] → item.links = []
  -- The item with the mark moved is there.
  moved : ∀ {symbol : Symbol} {rest : List Symbol}, g.after item.core = symbol :: rest →
    ∃ s next slot, q.transition? symbol = some s ∧ a.state s = .ok next ∧
      next.items.find? item.core.advance = some slot
  -- The predicted items are there.
  predicted : ∀ {n : NonterminalId} {rest rhs : List Symbol} {p : ProductionId},
    g.after item.core = .nonterminal n :: rest → g.HasRule p n rhs →
      ∃ slot, q.items.find? ⟨p, 0⟩ = some slot
  links : ∀ {symbol : Symbol} {rest : List Symbol}, g.after item.core = symbol :: rest →
    ∀ r, r ∈ item.links ↔
      (q.transition? symbol = some r.state ∧ ∃ next, a.state r.state = .ok next ∧
        next.items.find? item.core.advance = some r.slot) ∨
      (r.state = q.id ∧ g.Vanishes rest ∧ ∃ n p rhs, symbol = .nonterminal n ∧
        g.HasRule p n rhs ∧ q.items.find? ⟨p, 0⟩ = some r.slot)

/-- Links are exact in what is built for a grammar. -/
theorem exactLinks_of_build {declarations : List Declaration}
    (hg : Grammar.define declarations = .ok g) (ha : build g = .ok a) {q : State}
    (hq : q ∈ a.states) {item : Item} (hitem : item ∈ q.items.items) :
    a.state q.id = .ok q ∧ a.ExactLinks g q item := by
  have hwell := Grammar.wellFormed_of_define hg
  have hexact := exact_of_build hwell ha
  obtain ⟨a₀, a₁, passes, hreach, hlink, hpropagate⟩ := build_eq_ok.mp ha
  have hlinked := (explored_of_reach hwell hreach).linked hlink
  have hfills := (passFrom_spec (P := fun _ _ => True) hpropagate).1
  obtain ⟨i, hi⟩ := Array.getElem?_of_mem hq
  obtain ⟨slot, hslot⟩ := Array.getElem?_of_mem hitem
  have hstate : a.state q.id = .ok q := state_eq_ok.mpr ((hexact.id hi).symm ▸ hi)
  have hlinks := fun r => hlinked.mem_links_iff hfills hi hslot (r := r)
  obtain ⟨γ, hγ⟩ := hexact.holds hi
  have hvalid := hγ.validItem hitem
  refine ⟨hstate, ?_, ?_, ?_, ?_, ?_⟩
  · obtain ⟨item₀, hitem₀, -, hsame, -⟩ :=
      hfills.of_item (item_eq_ok.mpr ⟨q, state_eq_ok.mp hstate, hslot⟩ : a.item ⟨q.id, slot⟩ = _)
    obtain ⟨q₀, hq₀, hslot₀⟩ := item_eq_ok.mp hitem₀
    exact hsame ▸ distinct_of_link hreach hlink hq₀ hslot₀
  · intro hafter
    refine List.eq_nil_iff_forall_not_mem.mpr fun r hr => ?_
    obtain ⟨target, -, hfeeds⟩ := (hlinks r).mp hr
    exact not_feeds_of_atEnd hafter hfeeds
  · intro symbol rest hafter
    obtain ⟨⟨x, s⟩, hs, rfl⟩ := List.mem_map.mp <| (hexact.expected hi symbol).mpr
      ⟨item.core, (hγ _).mpr hvalid, rest, hafter⟩
    obtain ⟨next, hnext, hholds⟩ := hexact.target hi hs
    obtain ⟨slot', hfind⟩ := (hholds γ hγ).exists_find? (.advance hvalid hafter)
    exact ⟨s, next, slot', (State.transition?_eq_some (hexact.nodup hi)).mpr hs,
      state_eq_ok.mpr hnext, hfind⟩
  · intro n rest rhs p hafter hp
    exact hγ.exists_find? (.predict hvalid hafter hp)
  · intro symbol rest hafter r
    simp only [hlinks, feeds_iff hafter]
    constructor
    · rintro ⟨target, htarget, ⟨hr, hcore⟩ | ⟨hr, hv, n, p, rhs, hsymbol, hp, hcore⟩⟩
      · exact .inl ⟨hr, exists_item_iff.mp ⟨target, htarget, hcore⟩⟩
      · obtain ⟨q', hq', hfind⟩ := exists_item_iff.mp ⟨target, htarget, hcore⟩
        rw [hr, hstate, Except.ok.injEq] at hq'
        exact .inr ⟨hr, hv, n, p, rhs, hsymbol, hp, hq' ▸ hfind⟩
    · rintro (⟨hr, hnext⟩ | ⟨hr, hv, n, p, rhs, hsymbol, hp, hfind⟩)
      · obtain ⟨target, htarget, hcore⟩ := exists_item_iff.mpr hnext
        exact ⟨target, htarget, .inl ⟨hr, hcore⟩⟩
      · obtain ⟨target, htarget, hcore⟩ := exists_item_iff.mpr ⟨q, hr.symm ▸ hstate, hfind⟩
        exact ⟨target, htarget, .inr ⟨hr, hv, n, p, rhs, hsymbol, hp, hcore⟩⟩

/-- `S ::= A B` in the start state: `B` can vanish, so it is linked to `A ::= x` there as well as to
the item with the mark behind `A` in another state. -/
theorem exactLinks_of_build_optionalTail :
    ∃ g a, Grammar.define optionalTail = .ok g ∧ build g = .ok a ∧
      ∃ q ∈ a.states, ∃ item ∈ q.items.items, item.core = ⟨.nth 1, 0⟩ ∧
        item.links = [⟨.start, 2⟩, ⟨.nth 2, 0⟩] ∧ a.ExactLinks g q item := by
  have hrun : (ofDeclarations optionalTail).any (fun (_, a) => a.states.any fun q =>
      q.items.items.any fun item => item.core = ⟨.nth 1, 0⟩ ∧
        item.links = [⟨.start, 2⟩, ⟨.nth 2, 0⟩]) = true := by
    decide +kernel
  obtain ⟨⟨g, a⟩, hbuilt, hchecks⟩ := (Option.any_eq_true _ _).mp hrun
  obtain ⟨hg, ha⟩ := ofDeclarations_eq_some hbuilt
  simp only [Array.any_eq_true', decide_eq_true_eq] at hchecks
  obtain ⟨q, hq, item, hitem, hcore, hlinks⟩ := hchecks
  exact ⟨g, a, hg, ha, q, hq, item, hitem, hcore, hlinks,
    (exactLinks_of_build hg ha hq hitem).2⟩

end Automaton

end Lalr
