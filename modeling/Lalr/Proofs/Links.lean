import Lalr.Proofs.Paths
import Lalr.Proofs.Traversal

namespace Lalr

variable {g : Grammar}

/-- What arrives in the item with core `c` of state `q` has to arrive in the item with core `d` of
state `r`. -/
def State.Feeds (g : Grammar) (q : State) (c : ItemCore) (r : StateId) (d : ItemCore) : Prop :=
  r = q.id ∧ g.Inherits c d ∨
    ∃ symbol rest, g.after c = symbol :: rest ∧ q.transition? symbol = some r ∧ d = c.advance

namespace ItemSet

theorem getElem?_addLinks {s : ItemSet} {targets : Array (Option ItemRef)} {slot : Nat} :
    (s.addLinks targets).items[slot]? =
      s.items[slot]?.map fun item => targets[slot]?.join.elim item item.addLink := by
  simp [addLinks, mapIdx]

@[simp] theorem cores_addLinks (s : ItemSet) (targets : Array (Option ItemRef)) :
    (s.addLinks targets).cores = s.cores := by
  apply List.ext_getElem?
  intro i
  simp only [cores, List.getElem?_map, Array.getElem?_toList, getElem?_addLinks]
  cases s.items[i]? with
  | none => rfl
  | some item => cases targets[i]?.join <;> simp

end ItemSet

namespace Automaton

theorem item_eq_ok {a : Automaton} {r : ItemRef} {item : Item} :
    a.item r = .ok item ↔
      ∃ q, a.states[r.state.index]? = some q ∧ q.items.items[r.slot]? = some item := by
  unfold Automaton.item ItemSet.get?
  cases a.states[r.state.index]? with
  | none => simp
  | some q => cases h : q.items.items[r.slot]? <;> simp [h]

theorem successor_ok {states : Array State} {q : State} {item : Item} {target : Option ItemRef}
    (h : successor g states q item = .ok target) :
    (∀ r, target = some r → ∃ symbol rest next found, g.after item.core = symbol :: rest ∧
      q.transition? symbol = some r.state ∧ states[r.state.index]? = some next ∧
      next.items.items[r.slot]? = some found ∧ found.core = item.core.advance) ∧
    ∀ symbol rest s, g.after item.core = symbol :: rest → q.transition? symbol = some s →
      ∃ slot, target = some ⟨s, slot⟩ := by
  unfold successor at h
  split at h
  · cases h
  · rename_i hnext
    cases h
    have hnil := List.head?_eq_none_iff.mp (Grammar.symbolAfterDot_eq_ok hnext).symm
    constructor
    · intro r hr
      cases hr
    · intro symbol rest s hafter
      rw [hnil] at hafter
      cases hafter
  · rename_i symbol hnext
    obtain ⟨rest, hrest⟩ := ItemSet.head?_eq_some.mp (Grammar.symbolAfterDot_eq_ok hnext).symm
    split at h
    · rename_i hnone
      cases h
      refine ⟨fun r hr => (by cases hr), fun x rest' s hafter hs => ?_⟩
      rw [hrest] at hafter
      cases hafter
      rw [hnone] at hs
      cases hs
    · rename_i next htransition
      split at h
      · cases h
      · rename_i slot hslot
        cases h
        obtain ⟨state, hstate, hfind⟩ := Option.bind_eq_some_iff.mp hslot
        obtain ⟨found, hfound, hcore⟩ := ItemSet.find?_eq_some.mp hfind
        constructor
        · rintro r ⟨⟩
          exact ⟨symbol, rest, state, found, hrest, htransition, hstate, hfound, hcore⟩
        · intro x rest' s hafter hs
          rw [hrest] at hafter
          cases hafter
          rw [htransition] at hs
          cases hs
          exact ⟨slot, rfl⟩

theorem exists_successor {states : Array State} {q : State} {item : Item}
    (hknown : (g.production? item.core.production).isSome)
    (h : ∀ symbol rest s, g.after item.core = symbol :: rest → q.transition? symbol = some s →
      ∃ next, states[s.index]? = some next ∧ item.core.advance ∈ next.items.cores) :
    ∃ target, successor g states q item = .ok target := by
  unfold successor
  rw [Grammar.symbolAfterDot_eq hknown]
  rcases hafter : g.after item.core with _ | ⟨symbol, rest⟩
  · exact ⟨none, rfl⟩
  · rw [List.head?_cons]
    rcases htransition : q.transition? symbol with _ | s
    · exact ⟨none, by simp only [htransition]⟩
    · obtain ⟨next, hstate, hmem⟩ := h symbol rest s hafter htransition
      obtain ⟨slot, found, hfound, hcore⟩ := ItemSet.mem_cores.mp hmem
      have hslot : next.items.find? ⟨item.core.production, item.core.dot + 1⟩ = some slot :=
        ItemSet.find?_eq_some.mpr ⟨found, hfound, hcore⟩
      exact ⟨some ⟨s, slot⟩, by simp only [htransition, hstate, Option.bind_some, hslot]⟩

theorem linkState_eq_ok {states : Array State} {q q' : State} :
    linkState g states q = .ok q' ↔ ∃ successors,
      q.items.items.mapM (successor g states q) = .ok successors ∧
        q' = { q with items := q.items.addLinks successors } := by
  unfold linkState
  cases q.items.items.mapM (successor g states q) with
  | error e => simp [bind, Except.bind]
  | ok successors => simp [bind, Except.bind, pure, Except.pure, eq_comm]

theorem link_eq_ok {a b : Automaton} : a.link g = .ok b ↔ ∃ states,
    a.states.mapM (linkState g a.states) = .ok states ∧ b = { a with states } := by
  unfold link
  cases a.states.mapM (linkState g a.states) with
  | error e => simp [bind, Except.bind]
  | ok states => simp [bind, Except.bind, pure, Except.pure, eq_comm]

/-- Linking a state keeps its outline, and adds to the links of each item the successor, if there is
one. -/
theorem linkState_ok {states : Array State} {q q' : State} (h : linkState g states q = .ok q') :
    q'.outline = q.outline ∧
      ∀ {slot : Nat} {item' : Item}, q'.items.items[slot]? = some item' →
        ∃ (item : Item) (target : Option ItemRef), q.items.items[slot]? = some item ∧
          successor g states q item = .ok target ∧ item'.core = item.core ∧
          item'.lookahead = item.lookahead ∧
          ∀ r, r ∈ item'.links ↔ r ∈ item.links ∨ target = some r := by
  obtain ⟨successors, hsuccessors, rfl⟩ := linkState_eq_ok.mp h
  refine ⟨by simp [State.outline], fun {slot item'} hitem' => ?_⟩
  change (q.items.addLinks successors).items[slot]? = some item' at hitem'
  rw [ItemSet.getElem?_addLinks] at hitem'
  obtain ⟨item, hitem, rfl⟩ := Option.map_eq_some_iff.mp hitem'
  have htarget := getElem?_of_mapM hsuccessors slot
  rw [hitem, Option.map_some] at htarget
  obtain ⟨target, htarget, hok⟩ := Option.map_eq_some_iff.mp htarget.symm
  refine ⟨item, target, hitem, hok.symm, ?_⟩
  rw [htarget]
  cases target with
  | none => simp
  | some r =>
      simp only [Option.join_some, Option.elim_some, Item.core_addLink,
        ItemSet.lookahead_addLink, ItemSet.mem_links_addLink, Option.some.injEq, true_and]
      exact fun r' => by rw [eq_comm]

theorem getElem?_linkState {states : Array State} {q q' : State}
    (h : linkState g states q = .ok q') {slot : Nat} {item : Item}
    (hitem : q.items.items[slot]? = some item) :
    ∃ (item' : Item) (target : Option ItemRef), q'.items.items[slot]? = some item' ∧
      successor g states q item = .ok target ∧ item'.core = item.core ∧
      item'.lookahead = item.lookahead ∧
      ∀ r, r ∈ item'.links ↔ r ∈ item.links ∨ target = some r := by
  obtain ⟨houtline, hitems⟩ := linkState_ok h
  have hsize : q'.items.size = q.items.size := by
    rw [← ItemSet.length_cores, ← ItemSet.length_cores, (Prod.mk.inj (Prod.mk.inj houtline).2).1]
  have hlt : slot < q'.items.items.size :=
    Nat.lt_of_lt_of_eq (Array.getElem?_eq_some_iff.mp hitem).1 hsize.symm
  obtain ⟨item₀, target, hitem₀, hrest⟩ := hitems (Array.getElem?_eq_getElem hlt)
  rw [hitem, Option.some.injEq] at hitem₀
  subst hitem₀
  exact ⟨_, target, Array.getElem?_eq_getElem hlt, hrest⟩

theorem Explored.justified {a : Automaton} (ha : a.Explored g) {i : Nat} {q : State}
    (hq : a.states[i]? = some q) :
    ∃ γ, q.Holds g γ ∧ q.items.Justified g q.id (g.ValidItem γ) (g.ValidLookahead γ) := by
  have hcanonical := ha.canonical hq
  rcases hcanonical.kernel_dot with hstart | hdot
  · obtain ⟨q₀, hq₀, hholds, hkernel⟩ := ha.holds_start
    have hid := ha.kernels.mpr ⟨q, (ha.id hq).symm ▸ hq, hstart⟩
    rw [ha.start, Option.some.injEq] at hid
    rw [hid, ha.id hq, hq, Option.some.injEq] at hq₀
    subst hq₀
    refine ⟨[], hholds, hcanonical.justified (g.predictive_valid []) ?_ fun _ => .start⟩
    exact fun c hc => (hholds c).mp (State.mem_cores_of_mem_kernel hc)
  · obtain ⟨γ, hγ⟩ := ha.valid hq
    refine ⟨γ, hγ, hcanonical.justified (g.predictive_valid γ) ?_ fun h => absurd rfl (hdot _ h)⟩
    exact fun c hc => (hγ c).mp (State.mem_cores_of_mem_kernel hc)

/-- An automaton in which lookaheads have not moved yet, but know where to go. -/
structure Linked (g : Grammar) (a : Automaton) : Prop extends Charted g a where
  link : ∀ {i slot : Nat} {q : State} {item : Item} {r : ItemRef}, a.states[i]? = some q →
    q.items.items[slot]? = some item → r ∈ item.links →
      ∃ target, a.item r = .ok target ∧ q.Feeds g item.core r.state target.core
  linked : ∀ {i slot : Nat} {q : State} {item : Item} {s : StateId} {d : ItemCore},
    a.states[i]? = some q → q.items.items[slot]? = some item → q.Feeds g item.core s d →
      ∃ slot' target, a.item ⟨s, slot'⟩ = .ok target ∧ target.core = d ∧ ⟨s, slot'⟩ ∈ item.links
  eof : ∃ slot item, a.item ⟨.start, slot⟩ = .ok item ∧ item.core = ⟨.start, 0⟩ ∧
    TerminalId.eof ∈ item.lookahead
  begins : ∀ {i : Nat} {q : State} {c : ItemCore} {n : NonterminalId} {rest rhs : List Symbol}
    {p : ProductionId} {t : TerminalId}, a.states[i]? = some q → c ∈ q.items.cores →
      g.after c = .nonterminal n :: rest → g.HasRule p n rhs → g.Begins rest t →
        ∃ (slot : Nat) (target : Item), q.items.items[slot]? = some target ∧
          target.core = ⟨p, 0⟩ ∧ t ∈ target.lookahead
  justified : ∀ {i slot : Nat} {q : State} {item : Item} {t : TerminalId},
    a.states[i]? = some q → q.items.items[slot]? = some item → t ∈ item.lookahead →
      ∃ γ, q.Holds g γ ∧ g.ValidLookahead γ item.core t

theorem link_states {a b : Automaton} (h : a.link g = .ok b) (i : Nat) :
    a.states[i]?.map (linkState g a.states) = b.states[i]?.map .ok := by
  obtain ⟨states, hstates, rfl⟩ := link_eq_ok.mp h
  exact getElem?_of_mapM hstates i

theorem exists_of_link {a b : Automaton} (h : a.link g = .ok b) {i : Nat} {q' : State}
    (hq' : b.states[i]? = some q') :
    ∃ q, a.states[i]? = some q ∧ linkState g a.states q = .ok q' := by
  have hi := link_states h i
  rw [hq', Option.map_some] at hi
  exact Option.map_eq_some_iff.mp hi

theorem link_exists {a b : Automaton} (h : a.link g = .ok b) {i : Nat} {q : State}
    (hq : a.states[i]? = some q) :
    ∃ q', b.states[i]? = some q' ∧ linkState g a.states q = .ok q' := by
  have hi := link_states h i
  rw [hq, Option.map_some] at hi
  obtain ⟨q', hq', hok⟩ := Option.map_eq_some_iff.mp hi.symm
  exact ⟨q', hq', hok.symm⟩

theorem outline_link {a b : Automaton} (h : a.link g = .ok b) : b.outline = a.outline := by
  apply List.ext_getElem?
  intro i
  simp only [outline, List.getElem?_map, Array.getElem?_toList]
  cases hq : b.states[i]? with
  | none =>
      have hi := link_states h i
      rw [hq, Option.map_none] at hi
      rw [Option.map_eq_none_iff.mp hi]
  | some q' =>
      obtain ⟨q, hq', hok⟩ := exists_of_link h hq
      rw [hq', Option.map_some, Option.map_some, (linkState_ok hok).1]

theorem item_link {a b : Automaton} (h : a.link g = .ok b) {i slot : Nat} {q : State} {item : Item}
    (hq : a.states[i]? = some q) (hitem : q.items.items[slot]? = some item) {s : StateId}
    (hs : s.index = i) :
    ∃ item', b.item ⟨s, slot⟩ = .ok item' ∧ item'.core = item.core ∧
      item'.lookahead = item.lookahead := by
  obtain ⟨q', hq', hok⟩ := link_exists h hq
  obtain ⟨item', target, hitem', -, hcore, hla, -⟩ := getElem?_linkState hok hitem
  exact ⟨item', item_eq_ok.mpr ⟨q', hs ▸ hq', hitem'⟩, hcore, hla⟩

theorem Explored.linked_link {a b : Automaton} (ha : a.Explored g) (h : a.link g = .ok b)
    {i slot : Nat} {q' : State} {item' : Item} {s : StateId} {d : ItemCore}
    (hq' : b.states[i]? = some q') (hitem' : q'.items.items[slot]? = some item')
    (hfeeds : q'.Feeds g item'.core s d) :
    ∃ slot' target, b.item ⟨s, slot'⟩ = .ok target ∧ target.core = d ∧
      ⟨s, slot'⟩ ∈ item'.links := by
  obtain ⟨q, hq, hok⟩ := exists_of_link h hq'
  obtain ⟨houtline, hitems⟩ := linkState_ok hok
  obtain ⟨item, target, hitem, hsuccessor, hcore, -, hlinks⟩ := hitems hitem'
  rw [hcore] at hfeeds
  rcases hfeeds with ⟨hs, n, rest, p, rhs, hafter, hv, hp, rfl⟩ | ⟨symbol, rest, hafter, hs, rfl⟩
  · rw [(Prod.mk.inj houtline).1] at hs
    subst hs
    obtain ⟨j, found, hfound, hfoundCore, -, hlink⟩ := (ha.canonical hq).expanded slot
      (Array.getElem?_eq_some_iff.mp hitem).1 hitem hafter hp
    obtain ⟨found', hfound', hcore', -⟩ := item_link h hq hfound (ha.id hq)
    exact ⟨j, found', hfound', hcore'.trans hfoundCore, (hlinks _).mpr (.inl (hlink hv))⟩
  · unfold State.transition? at hs
    rw [(Prod.mk.inj (Prod.mk.inj houtline).2).2] at hs
    obtain ⟨hsound, hcomplete⟩ := successor_ok hsuccessor
    obtain ⟨slot', rfl⟩ := hcomplete symbol rest s hafter hs
    obtain ⟨_, _, next, found, -, -, hnext, hfound, hfoundCore⟩ := hsound _ rfl
    obtain ⟨found', hfound', hcore', -⟩ := item_link h hnext hfound rfl
    exact ⟨slot', found', hfound', hcore'.trans hfoundCore, (hlinks _).mpr (.inr rfl)⟩

theorem Explored.link_link {a b : Automaton} (ha : a.Explored g) (h : a.link g = .ok b)
    {i slot : Nat} {q' : State} {item' : Item} {r : ItemRef} (hq' : b.states[i]? = some q')
    (hitem' : q'.items.items[slot]? = some item') (hr : r ∈ item'.links) :
    ∃ target, b.item r = .ok target ∧ q'.Feeds g item'.core r.state target.core := by
  obtain ⟨q, hq, hok⟩ := exists_of_link h hq'
  obtain ⟨houtline, hitems⟩ := linkState_ok hok
  obtain ⟨item, target, hitem, hsuccessor, hcore, -, hlinks⟩ := hitems hitem'
  rw [hcore]
  rcases (hlinks r).mp hr with hr | rfl
  · obtain ⟨γ, -, hjustified⟩ := ha.justified hq
    obtain ⟨hstate, found, hfound, hinherits⟩ := hjustified.link hitem hr
    have hi : r.state.index = i := by rw [hstate, ha.id hq]
    obtain ⟨found', hfound', hcore', -⟩ := item_link h hq hfound hi
    exact ⟨found', hfound', .inl ⟨hstate.trans (Prod.mk.inj houtline).1.symm, hcore' ▸ hinherits⟩⟩
  · obtain ⟨symbol, rest, next, found, hafter, htransition, hnext, hfound, hfoundCore⟩ :=
      (successor_ok hsuccessor).1 r rfl
    obtain ⟨found', hfound', hcore', -⟩ := item_link h hnext hfound rfl
    refine ⟨found', hfound', .inr ⟨symbol, rest, hafter, ?_, hcore'.trans hfoundCore⟩⟩
    unfold State.transition? at htransition ⊢
    rwa [(Prod.mk.inj (Prod.mk.inj houtline).2).2]

theorem Explored.exists_link (hg : g.WellFormed) {a : Automaton} (ha : a.Explored g) :
    ∃ b, a.link g = .ok b := by
  obtain ⟨states, hstates⟩ : ∃ states, a.states.mapM (linkState g a.states) = .ok states := by
    refine exists_array_mapM_eq_ok _ _ fun q hq => ?_
    obtain ⟨i, hi⟩ := Array.getElem?_of_mem hq
    obtain ⟨γ, hγ⟩ := ha.valid hi
    obtain ⟨successors, hsuccessors⟩ := exists_array_mapM_eq_ok (successor g a.states q)
      q.items.items fun item hitem => by
        obtain ⟨slot, hslot⟩ := Array.getElem?_of_mem hitem
        have hcore := ItemSet.mem_cores.mpr ⟨slot, item, hslot, rfl⟩
        refine exists_successor (((hγ item.core).mp hcore).production_isSome hg) ?_
        intro symbol rest s hafter hs
        obtain ⟨k, hk, hcores⟩ := (ha.connected hi).target
          ((State.transition?_eq_some (ha.connected hi).nodup).mp hs)
        obtain ⟨next, hnext, rfl⟩ := ha.kernels.mp hk
        exact ⟨next, hnext, State.mem_cores_of_mem_kernel
          ((hcores _).mpr ⟨item.core, hcore, rest, hafter, rfl⟩)⟩
    exact ⟨_, linkState_eq_ok.mpr ⟨successors, hsuccessors, rfl⟩⟩
  exact ⟨_, link_eq_ok.mpr ⟨states, hstates, rfl⟩⟩

theorem Explored.linked {a b : Automaton} (ha : a.Explored g) (h : a.link g = .ok b) :
    b.Linked g := by
  refine ⟨ha.charted.of_outline_eq (outline_link h), ha.link_link h, ha.linked_link h, ?_, ?_, ?_⟩
  · obtain ⟨q, hq, -, hkernel⟩ := ha.holds_start
    obtain ⟨slot, item, hitem, hcore, heof⟩ := (ha.canonical hq).eof (by
      rw [hkernel, ItemSet.kernel, Kernel.mem_ofCores, cores_startItems]
      exact List.mem_singleton_self _)
    obtain ⟨item', hitem', hcore', hla⟩ := item_link h hq hitem rfl
    exact ⟨slot, item', hitem', hcore'.trans hcore, hla ▸ heof⟩
  · intro i q' c n rest rhs p t hq' hc hafter hp ht
    obtain ⟨q, hq, hok⟩ := exists_of_link h hq'
    rw [(Prod.mk.inj (Prod.mk.inj (linkState_ok hok).1).2).1] at hc
    obtain ⟨slot, item, hitem, rfl⟩ := ItemSet.mem_cores.mp hc
    obtain ⟨j, found, hfound, hcore, hbegins, -⟩ := (ha.canonical hq).expanded slot
      (Array.getElem?_eq_some_iff.mp hitem).1 hitem hafter hp
    obtain ⟨found', target, hfound', -, hcore', hla, -⟩ := getElem?_linkState hok hfound
    exact ⟨j, found', hfound', hcore'.trans hcore, hla ▸ hbegins t ht⟩
  · intro i slot q' item' t hq' hitem' ht
    obtain ⟨q, hq, hok⟩ := exists_of_link h hq'
    obtain ⟨houtline, hitems⟩ := linkState_ok hok
    obtain ⟨item, target, hitem, -, hcore, hla, -⟩ := hitems hitem'
    obtain ⟨γ, hγ, hjustified⟩ := ha.justified hq
    refine ⟨γ, ?_, hcore ▸ hjustified.lookahead hitem (hla ▸ ht)⟩
    intro c
    rw [(Prod.mk.inj (Prod.mk.inj houtline).2).1]
    exact hγ c

end Automaton

end Lalr
