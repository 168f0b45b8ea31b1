import Lalr.Proofs.Accounts
import Lalr.Proofs.Registries

namespace Lalr

/-- The numbers of entries in place that were picked out are in order. -/
theorem InPlace.pairwise_map_filter {kind : Kind} {α : Type} {number : α → Ident kind}
    {entries : Array α} (h : InPlace (fun a => (number a).index) entries) (p : α → Bool) :
    ((entries.toList.filter p).map number).Pairwise (· < ·) := by
  rw [List.pairwise_map]
  exact h.pairwise.filter p

theorem InPlace.mem_map_filter {kind : Kind} {α : Type} {number : α → Ident kind}
    {entries : Array α} (h : InPlace (fun a => (number a).index) entries) {p : α → Bool}
    {q : Ident kind → Prop} (hp : ∀ a ∈ entries, p a = true ↔ q (number a)) {i : Ident kind} :
    i ∈ (entries.toList.filter p).map number ↔ i.index < entries.size ∧ q i := by
  simp only [List.mem_map, List.mem_filter, Array.mem_toList_iff]
  constructor
  · rintro ⟨a, ⟨ha, hpa⟩, rfl⟩
    exact ⟨(Array.getElem?_eq_some_iff.mp (h.getElem?_of_mem ha)).1, (hp a ha).mp hpa⟩
  · rintro ⟨hi, hq⟩
    have ha : entries[i.index] ∈ entries := Array.getElem_mem hi
    have hnumber : number entries[i.index] = i :=
      Ident.ext_index (h _ _ (Array.getElem?_eq_getElem hi))
    exact ⟨_, ⟨ha, (hp _ ha).mpr (hnumber.symm ▸ hq)⟩, hnumber⟩

namespace Grammar

variable {g : Grammar}

theorem occurrences_eq_zero {symbol : Symbol} :
    g.occurrences symbol = 0 ↔ ∀ p ∈ g.productions, symbol ∉ p.symbols := by
  simp only [occurrences, List.count_eq_zero, List.mem_flatMap, Array.mem_toList_iff, not_exists,
    not_and]

structure Unmentioned (g : Grammar) (unused : Unused) : Prop where
  terminals_sorted : unused.terminals.Pairwise (· < ·)
  mem_terminals : ∀ t, t ∈ unused.terminals ↔ g.Knows (.terminal t) ∧ t ≠ .eof ∧ t ≠ .error ∧
    ∀ p ∈ g.productions, .terminal t ∉ p.symbols
  nonterminals_sorted : unused.nonterminals.Pairwise (· < ·)
  mem_nonterminals : ∀ n, n ∈ unused.nonterminals ↔ g.Knows (.nonterminal n) ∧
    ∀ p ∈ g.productions, .nonterminal n ∉ p.symbols ∧ p.lhs ≠ n

theorem Orderly.mem_terminals_unused (h : g.Orderly) (t : TerminalId) :
    t ∈ g.unused.terminals ↔ g.Knows (.terminal t) ∧ t ≠ .eof ∧ t ≠ .error ∧
      ∀ p ∈ g.productions, .terminal t ∉ p.symbols := by
  refine h.terminal_id.mem_map_filter (q := fun t : TerminalId => t ≠ .eof ∧ t ≠ .error ∧
    ∀ p ∈ g.productions, .terminal t ∉ p.symbols) fun terminal hterminal => ?_
  rw [← occurrences_eq_zero, ← h.terminal_uses terminal hterminal]
  simp only [Bool.and_eq_true, beq_iff_eq, bne_iff_ne]
  exact ⟨fun ⟨⟨huses, heof⟩, herror⟩ => ⟨heof, herror, huses⟩,
    fun ⟨heof, herror, huses⟩ => ⟨⟨huses, heof⟩, herror⟩⟩

theorem Orderly.mem_nonterminals_unused (h : g.Orderly) (n : NonterminalId) :
    n ∈ g.unused.nonterminals ↔ g.Knows (.nonterminal n) ∧
      ∀ p ∈ g.productions, .nonterminal n ∉ p.symbols ∧ p.lhs ≠ n := by
  refine h.nonterminal_id.mem_map_filter (q := fun n => ∀ p ∈ g.productions,
    .nonterminal n ∉ p.symbols ∧ p.lhs ≠ n) fun nonterminal hnonterminal => ?_
  -- Neither of the two summands of a count can make up for the other.
  rw [beq_iff_eq, h.nonterminal_uses nonterminal hnonterminal, Nat.add_eq_zero_iff,
    occurrences_eq_zero, List.countP_eq_zero]
  simp only [Array.mem_toList_iff, decide_eq_true_eq, forall₂_and]

theorem Orderly.unmentioned (h : g.Orderly) : g.Unmentioned g.unused where
  terminals_sorted := h.terminal_id.pairwise_map_filter _
  mem_terminals := h.mem_terminals_unused
  nonterminals_sorted := h.nonterminal_id.pairwise_map_filter _
  mem_nonterminals := h.mem_nonterminals_unused

/-- What is found unused is what no production mentions, and all that the sink is told is one report
for each such symbol, in the same order. -/
theorem checkUnused_of_define {σ : Type} [DiagnosticSink σ] {declarations : List Declaration}
    {g : Grammar} (h : define declarations = .ok g) (quiet : Bool) (sink : σ) :
    ∃ unused, g.Unmentioned unused ∧ g.checkUnused quiet sink =
      (unused, DiagnosticSink.reportAll sink (if quiet then [] else
        unused.terminals.map .unusedTerminal ++ unused.nonterminals.map .unusedNonterminal)) := by
  obtain ⟨start, hstart, rfl⟩ := Draft.finish_eq_ok h
  have horderly := orderly_grammar (Draft.sound_declareAll declarations)
    (Draft.counted_declareAll declarations) (Draft.distinct_declareAll declarations) hstart
  exact ⟨_, horderly.unmentioned, Prod.ext rfl (checkUnused_snd _ quiet sink)⟩

/-- The grammar of `S ::= {first} x`, with a terminal and a nonterminal that only a refused rule
mentions. -/
def wasteful : List Declaration :=
  [.terminal "x" none, .terminal "y" none, .nonterminal "S", .nonterminal "A",
    .rule (.nth 2) [.nonterminal 2, .terminal 3, .nonterminal 7] none,
    .rule (.nth 1) [.action "first", .terminal 2] none]

theorem checkUnused_of_define_wasteful :
    ∃ g, define wasteful = .ok g ∧ ∃ unused, g.Unmentioned unused ∧
      g.checkUnused false Diagnostics.empty = (unused, DiagnosticSink.reportAll Diagnostics.empty
        [.unusedTerminal (.nth 3), .unusedNonterminal (.nth 2)]) := by
  obtain ⟨g, hg, hrun⟩ := @exists_define wasteful (fun g =>
      g.unused.terminals = [.nth 3] ∧ g.unused.nonterminals = [.nth 2]) (by decide +kernel)
  obtain ⟨hterminals, hnonterminals⟩ := of_decide_eq_true hrun
  obtain ⟨unused, hunused, heq⟩ := checkUnused_of_define hg false Diagnostics.empty
  obtain rfl : g.unused = unused := congrArg Prod.fst heq
  refine ⟨g, hg, _, hunused, heq.trans ?_⟩
  rw [hterminals, hnonterminals]
  rfl

end Grammar

end Lalr
