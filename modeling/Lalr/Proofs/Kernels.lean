import Mathlib.Data.List.Sort
import Lalr.Automaton.Exploration
import Lalr.Proofs.Closure

namespace Lalr

instance : Std.Irrefl (α := ItemCore) (· < ·) := ⟨by
  intro c h
  simp only [ItemCore.lt_iff, Ident.lt_iff] at h
  omega⟩

instance : Std.Antisymm (α := ItemCore) (· < ·) := ⟨by
  intro a b hab hba
  have haa := ItemCore.lt_trans hab hba
  exact absurd haa (Std.Irrefl.irrefl a)⟩

namespace Kernel

theorem ext_mem {k k' : Kernel} (h : ∀ c, c ∈ k.cores ↔ c ∈ k'.cores) : k = k' := by
  obtain ⟨cores, sorted⟩ := k
  obtain ⟨cores', sorted'⟩ := k'
  congr
  exact sorted.eq_of_mem_iff sorted' h

theorem length_insertSorted {c : ItemCore} {ds : List ItemCore} (h : c ∉ ds) :
    (c.insertSorted ds).length = ds.length + 1 := by
  induction ds with
  | nil => rfl
  | cons d ds ih =>
      rw [List.mem_cons, not_or] at h
      unfold ItemCore.insertSorted
      split
      · rfl
      · rw [if_neg h.1, List.length_cons, ih h.2, List.length_cons]

theorem length_ofCores {cs : List ItemCore} (h : cs.Nodup) :
    (ofCores cs).cores.length = cs.length := by
  induction cs with
  | nil => rfl
  | cons c cs ih =>
      obtain ⟨hc, hcs⟩ := List.nodup_cons.mp h
      have hmem : c ∉ (ofCores cs).cores := by rwa [mem_ofCores]
      rw [ofCores, length_insertSorted hmem, ih hcs, List.length_cons]

end Kernel

/-- The cores that expect `symbol`, with the mark moved over it. -/
def Grammar.Shifted (g : Grammar) (cores : List ItemCore) (symbol : Symbol) (c : ItemCore) : Prop :=
  ∃ d ∈ cores, ∃ rest, g.after d = symbol :: rest ∧ c = d.advance

theorem Item.shift_eq {g : Grammar} {item : Item} {symbol : Symbol} {rest : List Symbol}
    (hknown : (g.production? item.core.production).isSome)
    (h : g.after item.core = symbol :: rest) : item.shift g = .ok ⟨item.core.advance, ∅, []⟩ := by
  obtain ⟨ended, hended⟩ := Grammar.exists_atEnd hknown
  have hnot : ended = false := by
    rw [← Bool.not_eq_true, Grammar.atEnd_eq_ok hended, h]
    exact List.cons_ne_nil _ _
  rw [Item.shift, hended, hnot]
  rfl

namespace ItemSet

variable {g : Grammar}

theorem head?_eq_some {symbols : List Symbol} {symbol : Symbol} :
    symbols.head? = some symbol ↔ ∃ rest, symbols = symbol :: rest := by
  cases symbols <;> simp

theorem expected_ok {items : List Item} {seen symbols : List Symbol}
    (h : expected g seen items = .ok symbols) (hseen : seen.Nodup) :
    symbols.Nodup ∧ ∀ symbol, symbol ∈ symbols ↔
      symbol ∈ seen ∨ ∃ item ∈ items, ∃ rest, g.after item.core = symbol :: rest := by
  induction items generalizing seen with
  | nil =>
      cases h
      exact ⟨hseen, by simp⟩
  | cons item items ih =>
      unfold expected at h
      cases hnext : item.core.symbolAfterDot g with
      | error e =>
          rw [hnext] at h
          cases h
      | ok next =>
          rw [hnext] at h
          have hhead := Grammar.symbolAfterDot_eq_ok hnext
          cases next with
          | none =>
              obtain ⟨hnodup, hmem⟩ := ih h hseen
              refine ⟨hnodup, fun symbol => ?_⟩
              rw [hmem symbol]
              have hnil : g.after item.core = [] := List.head?_eq_none_iff.mp hhead.symm
              simp [hnil]
          | some expectedSymbol =>
              have hnodup' : (if expectedSymbol ∈ seen then seen
                  else seen ++ [expectedSymbol]).Nodup := by
                split
                · exact hseen
                · rename_i hnew
                  exact List.nodup_append.mpr ⟨hseen, by simp, by
                    intro a ha b hb hab
                    rw [List.mem_singleton] at hb
                    exact hnew (hb ▸ hab ▸ ha)⟩
              obtain ⟨hnodup, hmem⟩ := ih h hnodup'
              obtain ⟨rest, hrest⟩ := head?_eq_some.mp hhead.symm
              refine ⟨hnodup, fun symbol => ?_⟩
              have hseen' : symbol ∈ (if expectedSymbol ∈ seen then seen
                  else seen ++ [expectedSymbol]) ↔ symbol ∈ seen ∨ symbol = expectedSymbol := by
                split
                · rename_i hold
                  exact ⟨.inl, fun h => h.elim id fun e => e ▸ hold⟩
                · simp
              rw [hmem symbol, hseen']
              simp only [List.mem_cons, exists_eq_or_imp, hrest, List.cons.injEq]
              constructor
              · rintro ((h | rfl) | h)
                · exact .inl h
                · exact .inr (.inl ⟨rest, rfl, rfl⟩)
                · exact .inr (.inr h)
              · rintro (h | ⟨-, rfl, -⟩ | h)
                · exact .inl (.inl h)
                · exact .inl (.inr rfl)
                · exact .inr h

theorem exists_expected {items : List Item}
    (h : ∀ item ∈ items, (g.production? item.core.production).isSome) (seen : List Symbol) :
    ∃ symbols, expected g seen items = .ok symbols := by
  induction items generalizing seen with
  | nil => exact ⟨seen, rfl⟩
  | cons item items ih =>
      have hrest := ih fun x hx => h x (List.mem_cons_of_mem _ hx)
      rw [expected, Grammar.symbolAfterDot_eq (h item List.mem_cons_self)]
      cases (g.after item.core).head? with
      | none => exact hrest _
      | some symbol => exact hrest _

/-- Nothing has arrived in the items of a set yet. -/
def Bare (s : ItemSet) : Prop :=
  ∀ ⦃slot : Nat⦄ ⦃item : Item⦄, s.items[slot]? = some item →
    item.lookahead = ∅ ∧ item.links = []

theorem bare_empty : (∅ : ItemSet).Bare := by
  intro slot item h
  change (#[] : Array Item)[slot]? = some item at h
  simp at h

theorem Bare.add {s : ItemSet} (hs : s.Bare) {core : ItemCore} :
    (s.add ⟨core, ∅, []⟩).1.Bare := by
  intro slot item h
  rcases getElem?_add h with rfl | ⟨old, hold, -, hlinks, hmem⟩
  · exact ⟨rfl, rfl⟩
  · obtain ⟨hla, hl⟩ := hs hold
    refine ⟨?_, hlinks.trans hl⟩
    ext t
    simp only [IdentSet.not_mem_empty, iff_false]
    intro ht
    rcases hmem t ht with ht | ⟨ht, -⟩
    · exact IdentSet.not_mem_empty t (hla ▸ ht)
    · exact IdentSet.not_mem_empty t ht

theorem mem_cores_add {s : ItemSet} {item : Item} {c : ItemCore} :
    c ∈ (s.add item).1.cores ↔ c ∈ s.cores ∨ c = item.core := by
  rw [cores_add]
  split
  · rename_i h
    exact ⟨.inl, fun hc => hc.elim id fun e => e ▸ h⟩
  · simp

theorem exists_shiftOver {items : List Item}
    (h : ∀ item ∈ items, (g.production? item.core.production).isSome) (symbol : Symbol)
    (s : ItemSet) : ∃ s', shiftOver g symbol s items = .ok s' := by
  induction items generalizing s with
  | nil => exact ⟨s, rfl⟩
  | cons item items ih =>
      have hknown := h item List.mem_cons_self
      have hrest := ih fun x hx => h x (List.mem_cons_of_mem _ hx)
      rw [shiftOver, Grammar.symbolAfterDot_eq hknown]
      by_cases hsymbol : (g.after item.core).head? = some symbol
      · obtain ⟨rest, hafter⟩ := head?_eq_some.mp hsymbol
        simp only [bind, Except.bind, hsymbol, if_true, Item.shift_eq hknown hafter]
        exact hrest _
      · simp only [bind, Except.bind, hsymbol, if_false]
        exact hrest _

theorem shiftOver_ok {symbol : Symbol} {items : List Item} {s s' : ItemSet}
    (h : shiftOver g symbol s items = .ok s') (hs : s.Bare) :
    s'.Bare ∧ ∀ c, c ∈ s'.cores ↔
      c ∈ s.cores ∨ g.Shifted (items.map (·.core)) symbol c := by
  induction items generalizing s with
  | nil =>
      cases h
      exact ⟨hs, by simp [Grammar.Shifted]⟩
  | cons item items ih =>
      unfold shiftOver at h
      cases hnext : item.core.symbolAfterDot g with
      | error e =>
          rw [hnext] at h
          cases h
      | ok next =>
          rw [hnext] at h
          have hhead := Grammar.symbolAfterDot_eq_ok hnext
          by_cases hsymbol : next = some symbol
          · cases hshift : item.shift g with
            | error e =>
                rw [hshift] at h
                simp [bind, Except.bind, hsymbol] at h
            | ok shifted =>
                rw [hshift] at h
                simp only [bind, Except.bind, hsymbol, if_true] at h
                have hshifted : shifted = ⟨item.core.advance, ∅, []⟩ := by
                  unfold Item.shift at hshift
                  cases hend : item.core.atEnd g with
                  | error e => simp [hend, bind, Except.bind] at hshift
                  | ok ended =>
                      cases ended <;> simp [hend, bind, Except.bind] at hshift
                      exact hshift.symm
                subst hshifted
                obtain ⟨hbare, hmem⟩ := ih h hs.add
                refine ⟨hbare, fun c => ?_⟩
                obtain ⟨rest, hrest⟩ := head?_eq_some.mp (hhead.symm.trans hsymbol)
                rw [hmem, mem_cores_add]
                simp only [Grammar.Shifted, List.map_cons, List.mem_cons, exists_eq_or_imp, hrest,
                  List.cons.injEq, true_and, exists_eq_left', or_assoc]
          · simp only [bind, Except.bind, hsymbol, if_false] at h
            obtain ⟨hbare, hmem⟩ := ih h hs
            refine ⟨hbare, fun c => ?_⟩
            have hnot : ∀ rest, g.after item.core ≠ symbol :: rest := by
              intro rest hrest
              rw [hrest, List.head?_cons] at hhead
              exact hsymbol hhead
            rw [hmem]
            simp [Grammar.Shifted, hnot]

end ItemSet

end Lalr
