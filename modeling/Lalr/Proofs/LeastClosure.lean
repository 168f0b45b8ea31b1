import Mathlib.Logic.Relation
import Mathlib.Order.Bounds.Defs
import Lalr.Proofs.CanonicalCollection

namespace Lalr

open Automaton (startItems)
open Relation (ReflTransGen)

namespace Grammar

def firsts (g : Grammar) (symbols : List Symbol) (lookahead : Set TerminalId) : Set TerminalId :=
  {t | g.Begins symbols t ∨ g.Vanishes symbols ∧ t ∈ lookahead}

/-- Each production that one of the items predicts has in its lookahead all that can follow the
predicted nonterminal there. -/
def Predicts (g : Grammar) (items : Set ItemCore) (lookahead : ItemCore → Set TerminalId) : Prop :=
  ∀ ⦃c : ItemCore⦄ ⦃n : NonterminalId⦄ ⦃rest rhs : List Symbol⦄ ⦃p : ProductionId⦄, c ∈ items →
    g.after c = .nonterminal n :: rest → g.HasRule p n rhs →
      g.firsts rest (lookahead c) ⊆ lookahead ⟨p, 0⟩

end Grammar

namespace ItemSet

def lookaheadOf (s : ItemSet) (c : ItemCore) : Set TerminalId :=
  {t | ∃ item ∈ s.items, item.core = c ∧ t ∈ item.lookahead}

/-- As the items of state `owner`, the item with core `c` has a link to the one with core `d`. -/
def LinksTo (s : ItemSet) (owner : StateId) (c d : ItemCore) : Prop :=
  ∃ item ∈ s.items, item.core = c ∧ ∃ slot, s.find? d = some slot ∧ ⟨owner, slot⟩ ∈ item.links

/-- The lookaheads after all of them have moved along the links within the set. -/
def saturated (s : ItemSet) (owner : StateId) (c : ItemCore) : Set TerminalId :=
  {t | ∃ d, ReflTransGen (s.LinksTo owner) d c ∧ t ∈ s.lookaheadOf d}

/-- `closed` is what closing has to make of the items `s` of state `owner`. -/
structure IsClosure (g : Grammar) (owner : StateId) (s closed : ItemSet) : Prop where
  -- Old items keep their slots, and new ones come behind them.
  kept : s.cores <+: closed.cores
  cores : ∀ c, c ∈ closed.cores ↔ c ∈ g.Closure {c | c ∈ s.cores}
  nodup : closed.cores.Nodup
  -- The links of an item lead to the slots of the items that it predicts, provided that all behind
  -- the predicted nonterminal can vanish.
  links : ∀ item ∈ closed.items, ∀ r, r ∈ item.links ↔
    r.state = owner ∧ ∃ d, closed.find? d = some r.slot ∧ g.Inherits item.core d
  lookaheads : IsLeast {lookahead | (∀ c, s.lookaheadOf c ⊆ lookahead c) ∧
    g.Predicts {c | c ∈ closed.cores} lookahead} (closed.saturated owner)

variable {g : Grammar} {owner : StateId} {s closed : ItemSet}

theorem mem_cores_of_mem {item : Item} (h : item ∈ s.items) : item.core ∈ s.cores := by
  obtain ⟨slot, hslot⟩ := Array.getElem?_of_mem h
  exact mem_cores.mpr ⟨slot, item, hslot, rfl⟩

theorem justified_of_unlinked (hlinks : ∀ item ∈ s.items, item.links = [])
    {core : ItemCore → Prop} {la : ItemCore → TerminalId → Prop} (hcore : ∀ c ∈ s.cores, core c)
    (hla : ∀ c, ∀ t ∈ s.lookaheadOf c, la c t) : s.Justified g owner core la := by
  refine ⟨fun hitem => hcore _ (mem_cores.mpr ⟨_, _, hitem, rfl⟩), ?_, ?_⟩
  · intro slot item t hitem ht
    exact hla item.core t ⟨item, Array.mem_of_getElem? hitem, rfl, ht⟩
  · intro slot item r hitem hr
    rw [hlinks item (Array.mem_of_getElem? hitem)] at hr
    exact absurd hr List.not_mem_nil

section Close

variable (hg : g.WellFormed) (hlinks : ∀ item ∈ s.items, item.links = [])
  (h : s.close g owner = ⟨.ok (), closed⟩)

include hg hlinks h

theorem mem_cores_close {c : ItemCore} :
    c ∈ closed.cores ↔ c ∈ g.Closure {c | c ∈ s.cores} := by
  obtain ⟨-, ⟨extra, hextra, -⟩, hexpanded⟩ := close_expands hg h
  constructor
  · intro hc
    have hpredictive : g.Predictive (· ∈ g.Closure {c | c ∈ s.cores}) fun _ _ => True :=
      ⟨.predict, fun _ _ _ _ => trivial, fun _ _ _ _ => trivial⟩
    have hjustified := close_justified hg hpredictive h
      (justified_of_unlinked hlinks (fun c hc => .base hc) fun _ _ _ => trivial)
    obtain ⟨slot, item, hitem, rfl⟩ := mem_cores.mp hc
    exact hjustified.core hitem
  · intro hc
    induction hc with
    | base hc => exact hextra ▸ List.mem_append_left extra hc
    | predict _ hafter hp ih =>
        obtain ⟨slot, item, hitem, rfl⟩ := mem_cores.mp ih
        obtain ⟨j, target, htarget, hcore, -⟩ :=
          hexpanded slot (Array.getElem?_eq_some_iff.mp hitem).1 hitem hafter hp
        exact mem_cores.mpr ⟨j, target, htarget, hcore⟩

theorem mem_links_close {item : Item} (hitem : item ∈ closed.items) {r : ItemRef} :
    r ∈ item.links ↔
      r.state = owner ∧ ∃ d, closed.find? d = some r.slot ∧ g.Inherits item.core d := by
  obtain ⟨slot, hslot⟩ := Array.getElem?_of_mem hitem
  constructor
  · intro hr
    have hpredictive : g.Predictive (fun _ => True) fun _ _ => True :=
      ⟨fun _ _ _ => trivial, fun _ _ _ _ => trivial, fun _ _ _ _ => trivial⟩
    obtain ⟨hstate, target, htarget, hinherits⟩ := (close_justified hg hpredictive h
      (justified_of_unlinked hlinks (fun _ _ => trivial) fun _ _ _ => trivial)).link hslot hr
    exact ⟨hstate, target.core, find?_eq_some.mpr ⟨target, htarget, rfl⟩, hinherits⟩
  · rintro ⟨hstate, d, hfind, n, rest, p, rhs, hafter, hvanishes, hp, rfl⟩
    obtain ⟨j, target, htarget, hcore, -, hlink⟩ := (close_expands hg h).2.2 slot
      (Array.getElem?_eq_some_iff.mp hslot).1 hslot hafter hp
    rw [find?_eq_some.mpr ⟨target, htarget, hcore⟩, Option.some.injEq] at hfind
    obtain ⟨state, slot'⟩ := r
    obtain rfl : state = owner := hstate
    obtain rfl : j = slot' := hfind
    exact hlink hvanishes

theorem linksTo_close {c d : ItemCore} :
    closed.LinksTo owner c d ↔ c ∈ closed.cores ∧ g.Inherits c d := by
  constructor
  · rintro ⟨item, hitem, rfl, slot, hfind, hlink⟩
    obtain ⟨-, d', hfind', hinherits⟩ := (mem_links_close hg hlinks h hitem).mp hlink
    obtain ⟨target, htarget, rfl⟩ := find?_eq_some.mp hfind
    obtain ⟨target', htarget', rfl⟩ := find?_eq_some.mp hfind'
    rw [htarget, Option.some.injEq] at htarget'
    exact ⟨mem_cores_of_mem hitem, htarget' ▸ hinherits⟩
  · rintro ⟨hc, hinherits⟩
    obtain ⟨slot, item, hslot, rfl⟩ := mem_cores.mp hc
    have hitem := Array.mem_of_getElem? hslot
    have hd : d ∈ closed.cores := by
      obtain ⟨n, rest, p, rhs, hafter, -, hp, rfl⟩ := hinherits
      exact (mem_cores_close hg hlinks h).mpr
        (.predict ((mem_cores_close hg hlinks h).mp hc) hafter hp)
    obtain ⟨j, target, htarget, rfl⟩ := mem_cores.mp hd
    have hfind := find?_eq_some.mpr ⟨target, htarget, rfl⟩
    exact ⟨item, hitem, rfl, j, hfind,
      (mem_links_close hg hlinks h hitem).mpr ⟨rfl, target.core, hfind, hinherits⟩⟩

/-- The saturated lookaheads are large enough: what an item gets after it was expanded moves on
along its links. -/
theorem predicts_saturated : g.Predicts {c | c ∈ closed.cores} (closed.saturated owner) := by
  intro c n rest rhs p hc hafter hp t ht
  rcases ht with hbegins | ⟨hvanishes, d, hpath, ht⟩
  · obtain ⟨slot, item, hslot, rfl⟩ := mem_cores.mp hc
    obtain ⟨j, target, htarget, hcore, hall, -⟩ := (close_expands hg h).2.2 slot
      (Array.getElem?_eq_some_iff.mp hslot).1 hslot hafter hp
    exact ⟨⟨p, 0⟩, .refl, target, Array.mem_of_getElem? htarget, hcore, hall t hbegins⟩
  · exact ⟨d, hpath.tail ((linksTo_close hg hlinks h).mpr
      ⟨hc, n, rest, p, rhs, hafter, hvanishes, hp, rfl⟩), ht⟩

theorem saturated_le {lookahead : ItemCore → Set TerminalId}
    (hold : ∀ c, s.lookaheadOf c ⊆ lookahead c)
    (hpredicts : g.Predicts {c | c ∈ closed.cores} lookahead) :
    closed.saturated owner ≤ lookahead := by
  have hmem : ∀ {c}, c ∈ g.Closure {c | c ∈ s.cores} → c ∈ closed.cores :=
    (mem_cores_close hg hlinks h).mpr
  have hpredictive : g.Predictive (· ∈ g.Closure {c | c ∈ s.cores})
      fun c t => c ∈ g.Closure {c | c ∈ s.cores} ∧ t ∈ lookahead c := by
    refine ⟨.predict, ?_, ?_⟩
    · intro c n rest p rhs t hc hafter hp ht
      exact ⟨.predict hc hafter hp, hpredicts (hmem hc) hafter hp (.inl ht)⟩
    · rintro c n rest p rhs t ⟨hc, ht⟩ hafter hp hvanishes
      exact ⟨.predict hc hafter hp, hpredicts (hmem hc) hafter hp (.inr ⟨hvanishes, ht⟩)⟩
  have hjustified := close_justified hg hpredictive h
    (justified_of_unlinked hlinks (fun c hc => .base hc) fun c t ht => by
      obtain ⟨item, hitem, rfl, -⟩ := id ht
      exact ⟨.base (mem_cores_of_mem hitem), hold _ ht⟩)
  rintro c t ⟨d, hpath, item, hitem, rfl, ht⟩
  obtain ⟨slot, hslot⟩ := Array.getElem?_of_mem hitem
  induction hpath with
  | refl => exact (hjustified.lookahead hslot ht).2
  | tail _ hlink ih =>
      obtain ⟨hc, n, rest, p, rhs, hafter, hvanishes, hp, rfl⟩ :=
        (linksTo_close hg hlinks h).mp hlink
      exact hpredicts hc hafter hp (.inr ⟨hvanishes, ih⟩)

theorem isLeast_saturated : IsLeast {lookahead | (∀ c, s.lookaheadOf c ⊆ lookahead c) ∧
    g.Predicts {c | c ∈ closed.cores} lookahead} (closed.saturated owner) := by
  refine ⟨⟨?_, predicts_saturated hg hlinks h⟩, fun lookahead hlookahead =>
    saturated_le hg hlinks h hlookahead.1 hlookahead.2⟩
  rintro c t ⟨item, hitem, rfl, ht⟩
  obtain ⟨slot, hslot⟩ := Array.getElem?_of_mem hitem
  obtain ⟨item', hitem', hcore, hla, -⟩ := (close_expands hg h).1 hslot
  exact ⟨item.core, .refl, item', Array.mem_of_getElem? hitem', hcore, hla t ht⟩

end Close

/-- Closing ends well for items of known productions.  If they are not linked yet, the result is
their closure. -/
theorem isClosure_of_close {declarations : List Declaration}
    (hg : Grammar.define declarations = .ok g) (owner : StateId)
    (hknown : ∀ c ∈ s.cores, (g.production? c.production).isSome)
    (hlinks : ∀ item ∈ s.items, item.links = []) :
    ∃ closed, s.close g owner = ⟨.ok (), closed⟩ ∧ IsClosure g owner s closed := by
  have hwell := Grammar.wellFormed_of_define hg
  obtain ⟨closed, h, -⟩ := close_total hwell owner hknown
  obtain ⟨-, ⟨extra, hextra, -⟩, -⟩ := close_expands hwell h
  exact ⟨closed, h, ⟨extra, hextra.symm⟩, fun _ => mem_cores_close hwell hlinks h, closed.nodup,
    fun _ hitem _ => mem_links_close hwell hlinks h hitem, isLeast_saturated hwell hlinks h⟩

/-- The grammar of `S ::= A`, `A ::= S x` and `A ::=`. -/
def circle : List Declaration :=
  [.terminal "x" none, .nonterminal "S", .nonterminal "A",
    .rule (.nth 1) [.nonterminal 2] none,
    .rule (.nth 2) [.nonterminal 1, .terminal 2] none,
    .rule (.nth 2) [] none]

/-- `x` can follow `S ::= A`, but it gets there only after `A ::= S x` was predicted from it: it is
missing in the lookahead of the latter, and arrives along the link. -/
theorem isClosure_of_close_circle :
    ∃ g closed, Grammar.define circle = .ok g ∧
      (∀ c ∈ startItems.cores, (g.production? c.production).isSome) ∧
      (∀ item ∈ startItems.items, item.links = []) ∧
      startItems.close g .start = ⟨.ok (), closed⟩ ∧ IsClosure g .start startItems closed ∧
      .nth 2 ∉ closed.lookaheadOf ⟨.nth 2, 0⟩ ∧ .nth 2 ∈ closed.saturated .start ⟨.nth 2, 0⟩ := by
  obtain ⟨g, hg, hrun⟩ := @Grammar.exists_define circle (fun g =>
      (∀ c ∈ startItems.cores, (g.production? c.production).isSome) ∧
      (∀ item ∈ startItems.items, item.links = []) ∧
      (∀ item ∈ (startItems.close g .start).state.items, item.core = ⟨.nth 2, 0⟩ →
        Ident.nth 2 ∉ item.lookahead) ∧
      (startItems.close g .start).state.find? ⟨.nth 2, 0⟩ = some 2 ∧
      ∃ item ∈ (startItems.close g .start).state.items, item.core = ⟨.nth 1, 0⟩ ∧
        Ident.nth 2 ∈ item.lookahead ∧ (⟨.start, 2⟩ : ItemRef) ∈ item.links) (by decide +kernel)
  simp only [decide_eq_true_eq] at hrun
  obtain ⟨hknown, hlinks, hmissing, hfind, item, hitem, hcore, hla, hlink⟩ := hrun
  obtain ⟨closed, hclose, hclosure⟩ := isClosure_of_close hg .start hknown hlinks
  rw [hclose] at hmissing hfind hitem
  refine ⟨g, closed, hg, hknown, hlinks, hclose, hclosure, ?_, ?_⟩
  · rintro ⟨item, hitem, hcore, ht⟩
    exact hmissing item hitem hcore ht
  · exact ⟨⟨.nth 1, 0⟩, .single ⟨item, hitem, hcore, 2, hfind, hlink⟩, item, hitem, hcore, hla⟩

end ItemSet

end Lalr
