import Lalr.Proofs.Inheritance
import Lalr.Proofs.LeastClosure

namespace Lalr

variable {g : Grammar}

namespace ItemSet

variable {s s' : ItemSet} {owner : StateId} {slot : Nat} {linked : Bool} {p : ProductionId}
  {lookahead : TerminalSet}

theorem size_eq_of_blank_eq (h : s'.blank = s.blank) : s'.size = s.size := by
  have hsize : ∀ t : ItemSet, t.blank.size = t.size := fun t => Array.size_mapIdx
  rw [← hsize s', h, hsize]

theorem modify_eq_self {f : Item → Item} (keeps : ∀ item, (f item).core = item.core)
    (h : ∀ item, s.items[slot]? = some item → f item = item) : s.modify slot f keeps = s := by
  have hitems : (s.modify slot f keeps).items = s.items := by
    apply Array.ext_getElem?
    intro i
    simp only [modify, Array.getElem?_modify]
    split
    · rename_i hi
      subst hi
      cases hitem : s.items[slot]? with
      | none => rfl
      | some item => exact congrArg some (h item hitem)
    · rfl
  rw [mk.injEq]
  exact ⟨hitems, rfl⟩

theorem addLink_of_mem {item : Item} {target : ItemRef} (hitem : s.items[slot]? = some item)
    (h : target ∈ item.links) : s.addLink slot target = s := by
  refine modify_eq_self _ fun item' hitem' => ?_
  rw [hitem, Option.some.injEq] at hitem'
  rw [← hitem', Item.addLink, if_pos h]

theorem add_of_getElem? (item : Item) {old : Item} (hold : s.items[slot]? = some old)
    (hcore : old.core = item.core) :
    s.add item =
      (s.modify slot (fun old => { old with lookahead := old.lookahead ∪ item.lookahead })
        fun _ => rfl, slot, false) := by
  have hfind := find?_eq_some.mpr ⟨old, hold, hcore⟩
  unfold add
  split
  · rename_i slot' hfind'
    obtain rfl : slot = slot' := Option.some.inj (hfind.symm.trans hfind')
    rfl
  · rename_i hfresh
    rw [hfind] at hfresh
    cases hfresh

theorem Covered.isNew (h : Covered owner slot lookahead linked p s) (more : TerminalSet) :
    (s.add (.initial p more)).2.2 = false := by
  obtain ⟨j, target, htarget, hcore, -⟩ := h
  rw [add_of_getElem? (.initial p more) htarget hcore]

theorem Covered.predictOne_eq (h : Covered owner slot lookahead linked p s) :
    predictOne owner slot lookahead linked p s = s := by
  obtain ⟨j, target, htarget, hcore, hla, hlink⟩ := h
  have hadd : s.add (.initial p lookahead) = (s, j, false) := by
    rw [add_of_getElem? (.initial p lookahead) htarget hcore, modify_eq_self]
    intro item hitem
    rw [htarget, Option.some.injEq] at hitem
    have hjoined : target.lookahead ∪ lookahead = target.lookahead :=
      IdentSet.union_eq_left.mpr (IdentSet.subset_iff.mpr hla)
    rw [← hitem, Item.initial, hjoined]
  unfold predictOne
  rw [hadd]
  split
  · rename_i hlinked
    obtain ⟨item, hitem, hmem⟩ := hlink hlinked
    exact addLink_of_mem hitem hmem
  · rfl

theorem Covered.blank_predictOne (h : Covered owner slot ∅ linked p s) (more : TerminalSet) :
    (predictOne owner slot more linked p s).blank = s.blank := by
  obtain ⟨j, target, htarget, hcore, -, hlink⟩ := h
  have hadd := add_of_getElem? (.initial p more) htarget hcore
  have hblank : (s.add (.initial p more)).1.blank = s.blank := by
    rw [hadd, blank_modify]
    exact fun _ => rfl
  unfold predictOne
  split
  · rename_i hlinked
    obtain ⟨item, hitem, hmem⟩ := hlink hlinked
    obtain ⟨item', hitem', -, -, hlinks⟩ := grows_add s (.initial p more) hitem
    rw [hadd] at hitem' ⊢
    rw [addLink_of_mem hitem' (hlinks _ hmem), ← hblank, hadd]
  · exact hblank

theorem predict_of_covered {ps : List ProductionId}
    (h : ∀ p ∈ ps, Covered owner slot lookahead linked p s) (pending : List Nat) :
    predict owner slot lookahead linked ps s pending = (s, pending) := by
  induction ps with
  | nil => rfl
  | cons p ps ih =>
      obtain ⟨hp, hps⟩ := List.forall_mem_cons.mp h
      rw [predict_cons, hp.predictOne_eq, hp.isNew lookahead]
      exact ih hps

theorem blank_predict_of_covered {ps : List ProductionId}
    (h : ∀ p ∈ ps, Covered owner slot ∅ linked p s) (more : TerminalSet) (pending : List Nat) :
    (predict owner slot more linked ps s pending).1.blank = s.blank := by
  induction ps generalizing s pending with
  | nil => rfl
  | cons p ps ih =>
      obtain ⟨hp, hps⟩ := List.forall_mem_cons.mp h
      have hgrows := grows_predictOne owner slot more linked p s
      rw [predict_cons, ih fun p' hp' => (hps p' hp').grow hgrows]
      exact hp.blank_predictOne more

theorem Expanded.covered (hg : g.WellFormed) (h : Expanded g owner s slot) {item : Item}
    (hitem : s.items[slot]? = some item) {n : NonterminalId} {rhs : Array Part}
    (hafter : g.after item.core =
      .nonterminal n :: (rhs.toList.map Part.symbol).drop (item.core.dot + 1))
    (hp : p ∈ g.productionsOf n) (more : TerminalSet) :
    Covered owner slot ∅ (g.firstWithLookahead rhs (item.core.dot + 1) more).2 p s := by
  obtain ⟨right, hrule⟩ := hg.mem_productionsOf.mp hp
  obtain ⟨j, target, htarget, hcore, -, hlink⟩ := h hitem hafter hrule
  exact ⟨j, target, htarget, hcore, fun t ht => absurd ht (IdentSet.not_mem_empty t),
    fun hv => ⟨item, hitem, hlink (hg.firstWithLookahead_snd.mp hv)⟩⟩

theorem closeFrom_blank (hg : g.WellFormed) {pending : List Nat}
    (h : s.closeFrom g owner pending = ⟨.ok (), s'⟩)
    (hs : ∀ slot < s.size, Expanded g owner s slot) : s'.blank = s.blank := by
  fun_induction closeFrom g owner s pending with
  | case1 s =>
      cases h
      rfl
  | case2 s slot pending hnone ih => exact ih h hs
  | case3 s slot pending item hitem hunknown => cases h
  | case4 s slot pending item hitem production hproduction n hsymbol lookahead vanishes hfirst
      closed ih =>
      have hafter := after_eq_of_symbolAt hproduction hsymbol
      have hexpanded := hs slot (Array.getElem?_eq_some_iff.mp hitem).1
      have hvanishes : (g.firstWithLookahead production.rhs (item.core.dot + 1)
          item.lookahead).2 = vanishes := by rw [hfirst]
      have hblank : closed.1.blank = s.blank := blank_predict_of_covered
        (fun p hp => hvanishes ▸ hexpanded.covered hg hitem hafter hp item.lookahead) lookahead
        pending
      have hgrows := grows_predict owner slot lookahead vanishes (g.productionsOf n) s pending
      rw [← hblank]
      refine ih h fun i hi => ?_
      have hlt : i < s.size := Nat.lt_of_lt_of_eq hi (size_eq_of_blank_eq hblank)
      exact (hs i hlt).grow hgrows hlt
  | case5 s slot pending item hitem production hproduction hsymbol ih => exact ih h hs

/-- A set that lacks nothing: every slot is expanded, and lookaheads have moved along all links
within the set. -/
structure Complete (g : Grammar) (owner : StateId) (s : ItemSet) : Prop where
  expanded : ∀ slot < s.size, Expanded g owner s slot
  settled : ∀ {slot j : Nat} {item target : Item}, s.items[slot]? = some item →
    ⟨owner, j⟩ ∈ item.links → s.items[j]? = some target →
      ∀ t ∈ item.lookahead, t ∈ target.lookahead

theorem Complete.covered (hg : g.WellFormed) (h : s.Complete g owner) {item : Item}
    (hitem : s.items[slot]? = some item) {n : NonterminalId} {rhs : Array Part}
    (hafter : g.after item.core =
      .nonterminal n :: (rhs.toList.map Part.symbol).drop (item.core.dot + 1))
    (hp : p ∈ g.productionsOf n) :
    Covered owner slot (g.firstWithLookahead rhs (item.core.dot + 1) item.lookahead).1
      (g.firstWithLookahead rhs (item.core.dot + 1) item.lookahead).2 p s := by
  obtain ⟨right, hrule⟩ := hg.mem_productionsOf.mp hp
  obtain ⟨j, target, htarget, hcore, hbegins, hlink⟩ :=
    h.expanded slot (Array.getElem?_eq_some_iff.mp hitem).1 hitem hafter hrule
  refine ⟨j, target, htarget, hcore, fun t ht => ?_,
    fun hv => ⟨item, hitem, hlink (hg.firstWithLookahead_snd.mp hv)⟩⟩
  rcases hg.mem_firstWithLookahead.mp ht with ht | ⟨hv, ht⟩
  · exact hbegins t ht
  · exact h.settled hitem (hlink hv) htarget t ht

theorem Complete.closeFrom_eq (hg : g.WellFormed) (h : s.Complete g owner)
    (hknown : ∀ c ∈ s.cores, (g.production? c.production).isSome) (pending : List Nat) :
    s.closeFrom g owner pending = ⟨.ok (), s⟩ := by
  induction pending with
  | nil =>
      rw [closeFrom]
      rfl
  | cons slot pending ih =>
      rw [closeFrom]
      split
      · exact ih
      · rename_i item hitem
        split
        · rename_i hunknown
          have hsome := hknown item.core (mem_cores.mpr ⟨slot, item, hitem, rfl⟩)
          rw [hunknown] at hsome
          cases hsome
        · rename_i production hproduction
          split
          · rename_i n hsymbol
            have hafter := after_eq_of_symbolAt hproduction hsymbol
            simp only [predict_of_covered fun p hp => h.covered hg hitem hafter hp]
            exact ih
          · exact ih

/-- A set that was just closed gets nothing from closing but more lookahead. -/
theorem close_close (hg : g.WellFormed) (owner : StateId)
    (hknown : ∀ c ∈ s.cores, (g.production? c.production).isSome) :
    ∃ once twice, s.close g owner = ⟨.ok (), once⟩ ∧ once.close g owner = ⟨.ok (), twice⟩ ∧
      twice.blank = once.blank ∧ once.Grows twice := by
  obtain ⟨once, honce, hknown⟩ := close_total hg owner hknown
  obtain ⟨twice, htwice, -⟩ := close_total hg owner hknown
  obtain ⟨-, -, hexpanded⟩ := close_expands hg honce
  exact ⟨once, twice, honce, htwice, closeFrom_blank hg htwice hexpanded,
    (close_expands hg htwice).1⟩

end ItemSet

namespace Automaton

variable {a b : Automaton}

/-- The states of `b` are those of `a`, with no fewer terminals and links. -/
def Swells (a b : Automaton) : Prop :=
  ∀ ⦃i : Nat⦄ ⦃q' : State⦄, b.states[i]? = some q' → ∃ q, a.states[i]? = some q ∧ q.id = q'.id ∧
    q.items.cores = q'.items.cores ∧ q.items.Grows q'.items

theorem swells_link (h : a.link g = .ok b) : a.Swells b := by
  intro i q' hq'
  obtain ⟨q, hq, hok⟩ := exists_of_link h hq'
  obtain ⟨hid, hrest⟩ := Prod.mk.inj (linkState_ok hok).1
  refine ⟨q, hq, hid.symm, (Prod.mk.inj hrest).1.symm, fun slot item hitem => ?_⟩
  obtain ⟨item', target, hitem', -, hcore, hla, hlinks⟩ := getElem?_linkState hok hitem
  exact ⟨item', hitem', hcore, fun t ht => hla.symm ▸ ht, fun r hr => (hlinks r).mpr (.inl hr)⟩

theorem Fills.swells (h : a.Fills b) (hb : b.Charted g) : a.Swells b := by
  intro i q' hq'
  obtain ⟨q, hq, hid, hcores, -⟩ := exists_of_outline_eq h.outline hq'
  refine ⟨q, hq, hid, hcores, fun slot item hitem => ?_⟩
  have hi := hb.id hq'
  obtain ⟨item', hitem', hcore, hlinks, hla⟩ :=
    h.item (item_eq_ok.mpr ⟨q, hi.symm ▸ hq, hitem⟩ : a.item ⟨q'.id, slot⟩ = .ok item)
  obtain ⟨q'', hq'', hslot⟩ := item_eq_ok.mp hitem'
  rw [hi, hq', Option.some.injEq] at hq''
  exact ⟨item', hq'' ▸ hslot, hcore, hla, fun r hr => hlinks.symm ▸ hr⟩

theorem Swells.expanded (h : a.Swells b) (ha : ∀ {i : Nat} {q : State}, a.states[i]? = some q →
    ∀ slot < q.items.size, q.items.Expanded g q.id slot) {i : Nat} {q : State}
    (hq : b.states[i]? = some q) : ∀ slot < q.items.size, q.items.Expanded g q.id slot := by
  intro slot hslot
  obtain ⟨q₀, hq₀, hid, hcores, hgrows⟩ := h hq
  rw [← ItemSet.length_cores, ← hcores, ItemSet.length_cores] at hslot
  exact hid ▸ (ha hq₀ slot hslot).grow hgrows hslot

theorem complete_of_build (hg : g.WellFormed) (h : build g = .ok b) {q : State}
    (hq : q ∈ b.states) : q.items.Complete g q.id := by
  have hexact := exact_of_build hg h
  obtain ⟨a₀, a, passes, hreach, hlink, hpropagate⟩ := build_eq_ok.mp h
  obtain ⟨hfills, -, hsettled⟩ := passFrom_spec (P := fun _ _ => True) hpropagate
  obtain ⟨i, hi⟩ := Array.getElem?_of_mem hq
  have hstate : b.states[q.id.index]? = some q := (hexact.id hi).symm ▸ hi
  constructor
  · have hexplored := explored_of_reach hg hreach
    exact (hfills.swells hexact.toCharted).expanded
      ((swells_link hlink).expanded fun hq => (hexplored.canonical hq).expanded) hi
  · intro slot j item target hitem hlink htarget t ht
    obtain ⟨target', htarget', hall⟩ :=
      hsettled ⟨q.id, slot⟩ item (item_eq_ok.mpr ⟨q, hstate, hitem⟩) ⟨q.id, j⟩ hlink
    rw [item_eq_ok.mpr ⟨q, hstate, htarget⟩, Except.ok.injEq] at htarget'
    exact htarget' ▸ hall t ht

/-- The states of a finished automaton stay as they are when they are closed again.  Before
lookaheads have moved this need not be so, but closing a set twice gives no other items and links
than closing it once. -/
theorem close_again {declarations : List Declaration}
    (hg : Grammar.define declarations = .ok g) :
    (∀ a, build g = .ok a → ∀ q ∈ a.states, q.items.close g q.id = ⟨.ok (), q.items⟩) ∧
    ∀ (owner : StateId) (s : ItemSet), (∀ c ∈ s.cores, (g.production? c.production).isSome) →
      ∃ once twice, s.close g owner = ⟨.ok (), once⟩ ∧ once.close g owner = ⟨.ok (), twice⟩ ∧
        twice.blank = once.blank ∧ once.Grows twice := by
  have hwell := Grammar.wellFormed_of_define hg
  refine ⟨fun a ha q hq => ?_, fun owner s hknown => ItemSet.close_close hwell owner hknown⟩
  obtain ⟨i, hi⟩ := Array.getElem?_of_mem hq
  obtain ⟨γ, hγ⟩ := (exact_of_build hwell ha).holds hi
  exact (complete_of_build hwell ha hq).closeFrom_eq hwell
    (fun c hc => ((hγ c).mp hc).production_isSome hwell) _

/-- With `S ::= A`, `A ::= S x` and `A ::=`, closing the start set again brings `x` to the second
production of `A`, but the start state of the automaton has it already. -/
theorem close_again_circle :
    ∃ g a, Grammar.define ItemSet.circle = .ok g ∧ build g = .ok a ∧
      (∀ q ∈ a.states, q.items.close g q.id = ⟨.ok (), q.items⟩) ∧
      (∀ c ∈ startItems.cores, (g.production? c.production).isSome) ∧
      ∃ once twice, startItems.close g .start = ⟨.ok (), once⟩ ∧
        once.close g .start = ⟨.ok (), twice⟩ ∧ twice.blank = once.blank ∧ once.Grows twice ∧
        .nth 2 ∉ once.lookaheadOf ⟨.nth 3, 0⟩ ∧ .nth 2 ∈ twice.lookaheadOf ⟨.nth 3, 0⟩ := by
  have hrun : (ofDeclarations ItemSet.circle).any (fun (g, _) =>
      (∀ c ∈ startItems.cores, (g.production? c.production).isSome) ∧
      (∀ item ∈ (startItems.close g .start).state.items, item.core = ⟨.nth 3, 0⟩ →
        Ident.nth 2 ∉ item.lookahead) ∧
      ∃ item ∈ ((startItems.close g .start).state.close g .start).state.items,
        item.core = ⟨.nth 3, 0⟩ ∧ Ident.nth 2 ∈ item.lookahead) = true := by
    decide +kernel
  obtain ⟨⟨g, a⟩, hbuilt, hchecks⟩ := (Option.any_eq_true _ _).mp hrun
  obtain ⟨hg, ha⟩ := ofDeclarations_eq_some hbuilt
  simp only [decide_eq_true_eq] at hchecks
  obtain ⟨hknown, hmissing, item, hitem, hcore, hla⟩ := hchecks
  obtain ⟨hstates, hsets⟩ := close_again hg
  obtain ⟨once, twice, honce, htwice, hblank, hgrows⟩ := hsets .start startItems hknown
  rw [honce] at hmissing
  rw [honce, htwice] at hitem
  refine ⟨g, a, hg, ha, hstates a ha, hknown, once, twice, honce, htwice, hblank, hgrows, ?_,
    item, hitem, hcore, hla⟩
  rintro ⟨item, hitem, hcore, ht⟩
  exact hmissing item hitem hcore ht

end Automaton

end Lalr
