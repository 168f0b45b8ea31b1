import Lalr.Proofs.ValidItems

namespace Lalr

namespace Grammar

/-- The grammar has an entry for a symbol. -/
def Knows (g : Grammar) : Symbol → Prop
  | .terminal t => t.index < g.terminals.size
  | .nonterminal n => n.index < g.nonterminals.size

/-- A grammar that knows all it mentions. -/
structure Closed (g : Grammar) : Prop where
  eof : g.Knows (.terminal .eof)
  rhs : ∀ {p : ProductionId} {n : NonterminalId} {rhs : List Symbol}, g.HasRule p n rhs →
    ∀ symbol ∈ rhs, g.Knows symbol

theorem knows_grammar {d : Draft} {start : NonterminalId} {symbol : Symbol}
    (h : d.declares symbol = true) : (d.grammar start).Knows symbol := by
  cases symbol with
  | terminal t =>
      rw [Draft.declares, decide_eq_true_eq] at h
      simpa [Knows, Draft.grammar, Draft.assemble, Roster.size] using h
  | nonterminal n =>
      rw [Draft.declares, decide_eq_true_eq] at h
      simpa [Knows, Draft.grammar, Draft.assemble, Roster.size] using h

theorem closed_grammar {d : Draft} (hd : d.Sound) {start : NonterminalId}
    (hstart : d.start? = some start) : (d.grammar start).Closed := by
  constructor
  · apply knows_grammar
    exact decide_eq_true hd.terminals_pos
  · intro p n rhs h symbol hsymbol
    obtain ⟨r, hr, -, rfl⟩ := Draft.hasRule_grammar.mp h
    apply knows_grammar
    rcases Draft.getElem?_finishedRules hr with ⟨-, rfl⟩ | ⟨r', hr', -, rfl⟩ <;>
      rw [Rule.symbols, inheritPrecedence_rhs, List.mem_map] at hsymbol <;>
      obtain ⟨part, hpart, rfl⟩ := hsymbol
    · obtain rfl : part = ⟨.nonterminal start, none⟩ := by simpa [Draft.startRule] using hpart
      exact hd.declares_start? hstart
    · exact hd.rhs r' (Array.mem_of_getElem? hr') part (Array.mem_toList_iff.mp hpart)

theorem closed_of_define {declarations : List Declaration} {g : Grammar}
    (h : define declarations = .ok g) : g.Closed := by
  obtain ⟨start, hstart, rfl⟩ := Draft.finish_eq_ok h
  exact closed_grammar (Draft.sound_declareAll declarations) hstart

namespace Closed

variable {g : Grammar} (hg : g.Closed)

include hg

theorem derives {u v : List Symbol} (h : g.Derives u v) (hu : ∀ symbol ∈ u, g.Knows symbol) :
    ∀ symbol ∈ v, g.Knows symbol := by
  induction h with
  | refl => exact hu
  | tail _ step ih =>
      cases step with
      | rule hrule u v =>
          intro symbol hsymbol
          simp only [List.mem_append, List.mem_cons] at hsymbol ih
          rcases hsymbol with hsymbol | hsymbol | hsymbol
          · exact ih symbol (.inl hsymbol)
          · exact hg.rhs hrule symbol hsymbol
          · exact ih symbol (.inr (.inr hsymbol))

theorem begins {u : List Symbol} {t : TerminalId} (h : g.Begins u t)
    (hu : ∀ symbol ∈ u, g.Knows symbol) : g.Knows (.terminal t) := by
  obtain ⟨v, hv⟩ := h
  exact hg.derives hv hu _ List.mem_cons_self

theorem after {c : ItemCore} {symbol : Symbol} (h : symbol ∈ g.after c) : g.Knows symbol := by
  obtain ⟨first, rest, hc⟩ := List.exists_cons_of_ne_nil (List.ne_nil_of_mem h)
  obtain ⟨n, rhs, hrule, hdrop⟩ := hasRule_of_after hc
  rw [hc, ← hdrop] at h
  exact hg.rhs hrule symbol (List.mem_of_mem_drop h)

theorem validLookahead {γ : List Symbol} {c : ItemCore} {t : TerminalId}
    (h : g.ValidLookahead γ c t) : g.Knows (.terminal t) := by
  induction h with
  | start => exact hg.eof
  | begins _ hc _ ht =>
      apply hg.begins ht
      intro symbol hsymbol
      exact hg.after (hc ▸ List.mem_cons_of_mem _ hsymbol)
  | passes _ _ _ _ ih => exact ih
  | advance _ _ ih => exact ih

end Closed

end Grammar

end Lalr
