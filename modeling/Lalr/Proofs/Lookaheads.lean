import Lalr.Proofs.Propagation
import Lalr.Proofs.DefinedGrammar

namespace Lalr.Automaton

variable {g : Grammar} {a b : Automaton}

/-- An automaton whose lookaheads are complete: none is missing and none is spurious. -/
structure Exact (g : Grammar) (a : Automaton) : Prop extends Charted g a where
  lookahead : ∀ {i slot : Nat} {q : State} {item : Item}, a.states[i]? = some q →
    q.items.items[slot]? = some item → ∀ t, t ∈ item.lookahead ↔
      ∃ γ, q.Holds g γ ∧ g.ValidLookahead γ item.core t

theorem Exact.exists_item (ha : a.Exact g) {i : Nat} {q : State} (hq : a.states[i]? = some q)
    {γ : List Symbol} (hγ : q.Holds g γ) {c : ItemCore} {t : TerminalId}
    (h : g.ValidLookahead γ c t) :
    ∃ item ∈ q.items.items, item.core = c ∧ t ∈ item.lookahead := by
  obtain ⟨slot, item, hslot, rfl⟩ := ItemSet.mem_cores.mp ((hγ c).mpr h.validItem)
  exact ⟨item, Array.mem_of_getElem? hslot, rfl, (ha.lookahead hq hslot t).mpr ⟨γ, hγ, h⟩⟩

/-- A terminal stands in the lookahead of an item for a reason: the prefix that justifies it. -/
def Justifies (g : Grammar) (a : Automaton) (r : ItemRef) (t : TerminalId) : Prop :=
  ∃ q item γ, a.states[r.state.index]? = some q ∧ q.items.items[r.slot]? = some item ∧
    q.Holds g γ ∧ g.ValidLookahead γ item.core t

theorem Linked.within (ha : a.Linked g) : Within (a.Justifies g) a := by
  intro r item hitem t ht
  obtain ⟨q, hq, hslot⟩ := item_eq_ok.mp hitem
  obtain ⟨γ, hγ, hvalid⟩ := ha.justified hq hslot ht
  exact ⟨q, item, γ, hq, hslot, hγ, hvalid⟩

/-- Links lead from one reason to the next: to a predicted item for the same prefix, or to the item
with the mark moved for the prefix that is longer by the symbol it was moved over. -/
theorem Linked.conducts (ha : a.Linked g) : Conducts (a.Justifies g) a := by
  rintro r item hitem r' hr' t ⟨q, item', γ, hq, hslot, hγ, hvalid⟩
  obtain rfl : item' = item := by
    rw [item_eq_ok.mpr ⟨q, hq, hslot⟩, Except.ok.injEq] at hitem
    exact hitem
  obtain ⟨target, htarget, hfeeds⟩ := ha.link hq hslot hr'
  obtain ⟨q', hq', hslot'⟩ := item_eq_ok.mp htarget
  rcases hfeeds with ⟨hs, n, rest, p, rhs, hafter, hv, hp, hcore⟩ | ⟨x, rest, hafter, hx, hcore⟩
  · rw [hs, ha.id hq, hq, Option.some.injEq] at hq'
    subst hq'
    refine ⟨q, target, γ, ?_, hslot', hγ, hcore ▸ .passes hvalid hafter hp hv⟩
    rw [hs, ha.id hq, hq]
  · obtain ⟨q'', hq'', hholds⟩ :=
      ha.target hq ((State.transition?_eq_some (ha.nodup hq)).mp hx)
    rw [hq'', Option.some.injEq] at hq'
    subst hq'
    exact ⟨q'', target, γ ++ [x], hq'', hslot', hholds γ hγ, hcore ▸ .advance hvalid hafter⟩

theorem Linked.of_fills (ha : a.Linked g) (hab : a.Fills b) {i slot : Nat} {q : State} {item : Item}
    (hq : b.states[i]? = some q) (hitem : q.items.items[slot]? = some item) :
    ∃ (q₀ : State) (item₀ : Item), a.states[i]? = some q₀ ∧ q₀.items.items[slot]? = some item₀ ∧
      item.links = item₀.links ∧ ∀ s d, q.Feeds g item.core s d ↔ q₀.Feeds g item₀.core s d := by
  obtain ⟨q₀, hq₀, hid, -, htransitions⟩ := exists_of_outline_eq hab.outline hq
  have hplace : b.item ⟨q₀.id, slot⟩ = .ok item := by
    rw [item_eq_ok, ha.id hq₀]
    exact ⟨q, hq, hitem⟩
  obtain ⟨item₀, hitem₀, hcore, hlinks, -⟩ := hab.of_item hplace
  obtain ⟨q₁, hq₁, hslot₀⟩ := item_eq_ok.mp hitem₀
  rw [ha.id hq₀, hq₀, Option.some.injEq] at hq₁
  subst hq₁
  refine ⟨q₀, item₀, hq₀, hslot₀, hlinks, fun s d => ?_⟩
  simp only [State.Feeds, State.transition?, hid, htransitions, hcore]

theorem Linked.arrives (ha : a.Linked g) (hab : a.Fills b) (hb : ∀ r, b.Settled r) {s s' : StateId}
    {slot : Nat} {q : State} {item : Item} {d : ItemCore} {t : TerminalId}
    (hq : b.states[s.index]? = some q) (hitem : q.items.items[slot]? = some item)
    (ht : t ∈ item.lookahead) (hfeeds : q.Feeds g item.core s' d) :
    ∃ slot' target, b.item ⟨s', slot'⟩ = .ok target ∧ target.core = d ∧ t ∈ target.lookahead := by
  obtain ⟨q₀, item₀, hq₀, hitem₀, hlinks, hsame⟩ := ha.of_fills hab hq hitem
  obtain ⟨slot', target₀, htarget₀, rfl, hlink⟩ := ha.linked hq₀ hitem₀ ((hsame s' d).mp hfeeds)
  obtain ⟨target, htarget, hcore, -⟩ := hab.item htarget₀
  have hplace : b.item ⟨s, slot⟩ = .ok item := item_eq_ok.mpr ⟨q, hq, hitem⟩
  obtain ⟨target', htarget', hmem⟩ := hb _ item hplace _ (hlinks ▸ hlink)
  rw [htarget, Except.ok.injEq] at htarget'
  exact ⟨slot', target, htarget, hcore, htarget' ▸ hmem t ht⟩

/-- No lookahead is missing.  The induction follows the reasons why a terminal can follow. -/
theorem Linked.complete (ha : a.Linked g) (hab : a.Fills b) (hb : ∀ r, b.Settled r)
    {γ : List Symbol} {c : ItemCore} {t : TerminalId} (h : g.ValidLookahead γ c t) {s : StateId}
    {q : State} (hq : b.states[s.index]? = some q) (hγ : q.Holds g γ) :
    ∃ (slot : Nat) (item : Item), q.items.items[slot]? = some item ∧ item.core = c ∧
      t ∈ item.lookahead := by
  have hcharted := ha.toCharted.of_outline_eq hab.outline
  have hplace : ∀ {slot : Nat} {item : Item}, b.item ⟨s, slot⟩ = .ok item →
      q.items.items[slot]? = some item := by
    intro slot item hitem
    obtain ⟨q', hq', hslot⟩ := item_eq_ok.mp hitem
    rw [hq, Option.some.injEq] at hq'
    exact hq' ▸ hslot
  induction h generalizing s q with
  | start =>
      obtain ⟨q₀, hq₀, hholds⟩ := hcharted.start
      obtain rfl : StateId.start = s := Ident.ext_index (hcharted.unique hq₀ hq hholds hγ)
      obtain ⟨slot, item, hitem, hcore, heof⟩ := ha.eof
      obtain ⟨item', hitem', hcore', -, hla⟩ := hab.item hitem
      exact ⟨slot, item', hplace hitem', hcore'.trans hcore, hla _ heof⟩
  | begins h hc hp ht =>
      obtain ⟨q₀, hq₀, -, hcores, -⟩ := exists_of_outline_eq hab.outline hq
      obtain ⟨slot, target, htarget, hcore, hmem⟩ :=
        ha.begins hq₀ (hcores ▸ (hγ _).mpr h) hc hp ht
      obtain ⟨target', htarget', hcore', -, hla⟩ :=
        hab.item (item_eq_ok.mpr ⟨q₀, hq₀, htarget⟩ : a.item ⟨s, slot⟩ = .ok target)
      exact ⟨slot, target', hplace htarget', hcore'.trans hcore, hla _ hmem⟩
  | passes _ hc hp hv ih =>
      obtain ⟨slot, item, hitem, rfl, ht⟩ := ih hq hγ hplace
      have hid : s = q.id := Ident.ext_index (hcharted.id hq).symm
      obtain ⟨slot', target, htarget, hcore, hmem⟩ := ha.arrives hab hb hq hitem ht
        (.inl ⟨hid, _, _, _, _, hc, hv, hp, rfl⟩)
      exact ⟨slot', target, hplace htarget, hcore, hmem⟩
  | @advance γ rest c x t h hc ih =>
      obtain ⟨r, hr⟩ := hcharted.exists_follow? h.validItem
      obtain ⟨q₁, hq₁, hholds₁⟩ := hcharted.exists_state hr
      obtain ⟨slot, item, hitem, rfl, ht⟩ := ih hq₁ hholds₁ fun {slot item} hitem => by
        obtain ⟨q', hq', hslot⟩ := item_eq_ok.mp hitem
        rw [hq₁, Option.some.injEq] at hq'
        exact hq' ▸ hslot
      obtain ⟨⟨x', s'⟩, hs', rfl⟩ := List.mem_map.mp <| (hcharted.expected hq₁ x).mpr
        ⟨item.core, (hholds₁ _).mpr h.validItem, rest, hc⟩
      obtain ⟨q₂, hq₂, hholds₂⟩ := hcharted.target hq₁ hs'
      obtain rfl : s' = s := Ident.ext_index (hcharted.unique hq₂ hq (hholds₂ γ hholds₁) hγ)
      obtain ⟨slot', target, htarget, hcore, hmem⟩ := ha.arrives hab hb hq₁ hitem ht
        (.inr ⟨x', rest, hc, (State.transition?_eq_some (hcharted.nodup hq₁)).mpr hs', rfl⟩)
      exact ⟨slot', target, hplace htarget, hcore, hmem⟩

theorem Linked.exact (ha : a.Linked g) {n : Nat} (h : a.propagate = ⟨.ok n, b⟩) : b.Exact g := by
  obtain ⟨hab, hwithin, hsettled⟩ := passFrom_spec (P := a.Justifies g) h
  have hcharted := ha.toCharted.of_outline_eq hab.outline
  refine ⟨hcharted, fun {i slot q item} hq hitem t => ⟨fun ht => ?_, ?_⟩⟩
  · have hplace : b.item ⟨q.id, slot⟩ = .ok item :=
      item_eq_ok.mpr ⟨q, (hcharted.id hq).symm ▸ hq, hitem⟩
    obtain ⟨q₀, item₀, γ, hq₀, hitem₀, hγ, hvalid⟩ := hwithin ha.conducts ha.within hplace t ht
    obtain ⟨item₁, hitem₁, hcore, -⟩ := hab.of_item hplace
    rw [item_eq_ok.mpr ⟨q₀, hq₀, hitem₀⟩, Except.ok.injEq] at hitem₁
    subst hitem₁
    obtain ⟨q₁, hq₁, -, hcores, -⟩ := exists_of_outline_eq hab.outline hq
    rw [hcharted.id hq, hq₁, Option.some.injEq] at hq₀
    subst hq₀
    refine ⟨γ, ?_, hcore ▸ hvalid⟩
    intro c
    rw [← hcores]
    exact hγ c
  · rintro ⟨γ, hγ, hvalid⟩
    have hq' : b.states[q.id.index]? = some q := (hcharted.id hq).symm ▸ hq
    obtain ⟨slot', item', hitem', hcore, ht⟩ := ha.complete hab hsettled hvalid hq' hγ
    obtain rfl := ItemSet.slot_inj hitem' hitem hcore
    rw [hitem, Option.some.injEq] at hitem'
    exact hitem' ▸ ht

theorem exact_of_build (hg : g.WellFormed) (h : build g = .ok a) : a.Exact g := by
  obtain ⟨a₀, a₁, passes, hreach, hlink, hpropagate⟩ := build_eq_ok.mp h
  exact ((explored_of_reach hg hreach).linked hlink).exact hpropagate

/-- A terminal is in the lookahead of an item exactly if, after some string that leads to its state,
it can follow the production of the item. -/
theorem mem_lookahead_iff {declarations : List Declaration}
    (hg : Grammar.define declarations = .ok g) (ha : build g = .ok a) {q : State}
    (hq : q ∈ a.states) {item : Item} (hitem : item ∈ q.items.items) (t : TerminalId) :
    t ∈ item.lookahead ↔
      ∃ γ, a.follow? .start γ = some q.id ∧ g.ValidLookahead γ item.core t := by
  have hexact := exact_of_build (Grammar.wellFormed_of_define hg) ha
  obtain ⟨i, hi⟩ := Array.getElem?_of_mem hq
  obtain ⟨slot, hslot⟩ := Array.getElem?_of_mem hitem
  have hq' : a.states[q.id.index]? = some q := (hexact.id hi).symm ▸ hi
  rw [hexact.lookahead hi hslot]
  simp only [hexact.follow?_eq_some hq']

/-- The grammar of some declarations with its automaton, unless a part of making them fails. -/
def ofDeclarations (declarations : List Declaration) : Option (Grammar × Automaton) := do
  let g ← (Grammar.define declarations).toOption
  let a ← (build g).toOption
  return (g, a)

theorem ofDeclarations_eq_some {declarations : List Declaration}
    (h : ofDeclarations declarations = some (g, a)) :
    Grammar.define declarations = .ok g ∧ build g = .ok a := by
  simp only [ofDeclarations, bind, Option.bind_eq_some_iff, pure, Option.some.injEq] at h
  obtain ⟨g', hg, a', ha, heq⟩ := h
  cases heq
  exact ⟨toOption_eq_some.mp hg, toOption_eq_some.mp ha⟩

/-- The grammar of `S ::= A B`, `A ::= x`, `B ::= y` and `B ::=`. -/
def optionalTail : List Declaration :=
  [.terminal "x" none, .terminal "y" none, .nonterminal "S", .nonterminal "A", .nonterminal "B",
    .rule (.nth 1) [.nonterminal 2, .nonterminal 3] none,
    .rule (.nth 2) [.terminal 2] none,
    .rule (.nth 3) [.terminal 3] none,
    .rule (.nth 3) [] none]

/-- The end of the input can follow `A ::= x`, as `B` can vanish. -/
theorem mem_lookahead_iff_optionalTail :
    ∃ g a, Grammar.define optionalTail = .ok g ∧ build g = .ok a ∧
      ∃ q ∈ a.states, ∃ item ∈ q.items.items, item.core = ⟨.nth 2, 1⟩ ∧
        ∃ γ, a.follow? .start γ = some q.id ∧ g.ValidLookahead γ item.core .eof := by
  have hrun : ((Grammar.define optionalTail).toOption.bind fun g => (build g).toOption).any
      (fun a => a.states.any fun q => q.items.items.any fun item =>
        item.core = ⟨.nth 2, 1⟩ ∧ TerminalId.eof ∈ item.lookahead) = true := by
    decide +kernel
  rcases hg : Grammar.define optionalTail with e | g
  · simp [hg, Except.toOption] at hrun
  · rcases ha : build g with e | a
    · simp [hg, ha, Except.toOption] at hrun
    · simp only [hg, ha, Except.toOption, Option.bind_some, Option.any_some,
        Array.any_eq_true', decide_eq_true_eq] at hrun
      obtain ⟨q, hq, item, hitem, hcore, heof⟩ := hrun
      exact ⟨g, a, rfl, ha, q, hq, item, hitem, hcore,
        (mem_lookahead_iff hg ha hq hitem .eof).mp heof⟩

end Lalr.Automaton
