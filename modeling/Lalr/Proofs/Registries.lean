import Lalr.Proofs.DeclaredSymbols

namespace Lalr

namespace Rule

def mentions (r : Rule) : List Symbol :=
  .nonterminal r.lhs :: r.symbols

theorem mentions_inheritPrecedence (terminals : Array TerminalDecl) (r : Rule) :
    (r.inheritPrecedence terminals).mentions = r.mentions := by
  rw [mentions, symbols, Grammar.inheritPrecedence_lhs, Grammar.inheritPrecedence_rhs, mentions,
    symbols]

theorem count_mentions (rules : List Rule) (symbol : Symbol) :
    (rules.flatMap mentions).count symbol =
      (rules.flatMap symbols).count symbol +
        rules.countP fun r => .nonterminal r.lhs = symbol := by
  induction rules with
  | nil => rfl
  | cons r rules ih =>
      simp only [List.flatMap_cons, List.count_append, List.countP_cons, ih, mentions,
        List.count_cons, beq_iff_eq, decide_eq_true_eq]
      omega

end Rule

namespace UseCounts

def of (u : UseCounts) : Symbol → Nat
  | .terminal t => u.terminals[t.index]?.getD 0
  | .nonterminal n => u.nonterminals[n.index]?.getD 0

structure Sized (u : UseCounts) (terminals nonterminals : Nat) : Prop where
  terminals : u.terminals.size = terminals
  nonterminals : u.nonterminals.size = nonterminals

variable {u : UseCounts} {terminals nonterminals : Nat}

def Covers (u : UseCounts) : Symbol → Prop
  | .terminal t => t.index < u.terminals.size
  | .nonterminal n => n.index < u.nonterminals.size

theorem of_addTerminal (u : UseCounts) (symbol : Symbol) :
    u.addTerminal.of symbol = u.of symbol := by
  cases symbol with
  | terminal t =>
      simp only [of, addTerminal, Array.getElem?_push]
      split
      · rename_i ht
        rw [ht, Array.getElem?_size]
        rfl
      · rfl
  | nonterminal n => rfl

theorem of_addNonterminal (u : UseCounts) (symbol : Symbol) :
    u.addNonterminal.of symbol = u.of symbol := by
  cases symbol with
  | terminal t => rfl
  | nonterminal n =>
      simp only [of, addNonterminal, Array.getElem?_push]
      split
      · rename_i hn
        rw [hn, Array.getElem?_size]
        rfl
      · rfl

theorem of_note {symbol : Symbol} (h : u.Covers symbol) (other : Symbol) :
    (u.note symbol).of other = u.of other + if symbol = other then 1 else 0 := by
  cases symbol <;> cases other <;>
    simp only [note, of, Array.getElem?_modify, Symbol.terminal.injEq, Symbol.nonterminal.injEq,
      Ident.ext_index_iff, reduceCtorEq, if_false, Nat.add_zero]
  all_goals
    split
    · rename_i heq
      rw [← heq, Array.getElem?_eq_getElem h]
      rfl
    · rfl

theorem Sized.addTerminal (h : u.Sized terminals nonterminals) :
    u.addTerminal.Sized (terminals + 1) nonterminals :=
  ⟨(Array.size_push _).trans (congrArg (· + 1) h.terminals), h.nonterminals⟩

theorem Sized.addNonterminal (h : u.Sized terminals nonterminals) :
    u.addNonterminal.Sized terminals (nonterminals + 1) :=
  ⟨h.terminals, (Array.size_push _).trans (congrArg (· + 1) h.nonterminals)⟩

theorem Sized.note (h : u.Sized terminals nonterminals) (symbol : Symbol) :
    (u.note symbol).Sized terminals nonterminals := by
  cases symbol with
  | terminal t => exact ⟨Array.size_modify.trans h.terminals, h.nonterminals⟩
  | nonterminal n => exact ⟨h.terminals, Array.size_modify.trans h.nonterminals⟩

theorem covers_note {symbol other : Symbol} : (u.note symbol).Covers other ↔ u.Covers other := by
  have hsized := Sized.note (u := u) ⟨rfl, rfl⟩ symbol
  cases other <;> simp only [Covers, hsized.terminals, hsized.nonterminals]

theorem foldl_note (h : u.Sized terminals nonterminals) {symbols : List Symbol}
    (hcovers : ∀ symbol ∈ symbols, u.Covers symbol) :
    (symbols.foldl note u).Sized terminals nonterminals ∧
      ∀ other, (symbols.foldl note u).of other = u.of other + symbols.count other := by
  induction symbols generalizing u with
  | nil => exact ⟨h, fun _ => rfl⟩
  | cons symbol symbols ih =>
      obtain ⟨hsized, hof⟩ := ih (h.note symbol) fun other hother =>
        covers_note.mpr (hcovers other (List.mem_cons_of_mem _ hother))
      refine ⟨hsized, fun other => ?_⟩
      rw [List.foldl_cons, hof, of_note (hcovers symbol List.mem_cons_self), List.count_cons]
      simp only [beq_iff_eq]
      omega

theorem noteRule_eq_foldl (u : UseCounts) (r : Rule) :
    u.noteRule r = r.mentions.foldl note u := by
  rw [noteRule, Rule.mentions, Rule.symbols, List.foldl_cons, List.foldl_map, Array.foldl_toList]

end UseCounts

namespace Draft

/-- No two rules have the same left side and the same right side. -/
def Distinct (d : Draft) : Prop :=
  ∀ {i j : Nat} {r r' : Rule}, d.rules[i]? = some r → d.rules[j]? = some r' → r.lhs = r'.lhs →
    r.symbols = r'.symbols → i = j

theorem distinct_declareAll (declarations : List Declaration) :
    (initial.declareAll declarations).Distinct := by
  refine declareAll_induction (motive := Distinct) ?_ ?_ declarations
  · intro i j r r' hr
    cases hr
  · intro d d' _ step h
    cases step with
    | rule _ _ _ _ fresh =>
        intro i j r r' hi hj hlhs hsymbols
        simp only [Array.getElem?_push] at hi hj
        split at hi <;> split at hj
        · simp only [*]
        · cases hi
          exact absurd hsymbols.symm (fresh r' (Array.mem_of_getElem? hj) hlhs.symm)
        · cases hj
          exact absurd hsymbols (fresh r (Array.mem_of_getElem? hi) hlhs)
        · exact h hi hj hlhs hsymbols
    | _ => exact h

/-- There is a count for every symbol, and it says how often the rules mention the symbol. -/
structure Counted (d : Draft) : Prop where
  sized : d.uses.Sized d.terminals.size d.nonterminals.size
  of : ∀ symbol, d.uses.of symbol = (d.rules.toList.flatMap Rule.mentions).count symbol

theorem Counted.covers {d : Draft} (h : d.Counted) {symbol : Symbol}
    (hsymbol : d.declares symbol = true) : d.uses.Covers symbol := by
  cases symbol <;> rw [declares, decide_eq_true_eq] at hsymbol
  · rwa [UseCounts.Covers, h.sized.terminals]
  · rwa [UseCounts.Covers, h.sized.nonterminals]

theorem Counted.noteRule {d : Draft} (h : d.Counted) {r : Rule}
    (hlhs : d.declares (.nonterminal r.lhs) = true)
    (hrhs : ∀ part ∈ r.rhs, d.declares part.symbol = true) :
    (d.uses.noteRule r).Sized d.terminals.size d.nonterminals.size ∧
      ∀ symbol, (d.uses.noteRule r).of symbol =
        (d.rules.toList.flatMap Rule.mentions).count symbol + r.mentions.count symbol := by
  have hcovers : ∀ symbol ∈ r.mentions, d.uses.Covers symbol := by
    intro symbol hsymbol
    rcases List.mem_cons.mp hsymbol with rfl | hsymbol
    · exact h.covers hlhs
    · obtain ⟨part, hpart, rfl⟩ := List.mem_map.mp hsymbol
      exact h.covers (hrhs part (Array.mem_toList_iff.mp hpart))
  rw [UseCounts.noteRule_eq_foldl]
  obtain ⟨hsized, hof⟩ := UseCounts.foldl_note h.sized hcovers
  exact ⟨hsized, fun symbol => (hof symbol).trans (congrArg (· + _) (h.of symbol))⟩

theorem counted_declareAll (declarations : List Declaration) :
    (initial.declareAll declarations).Counted := by
  refine declareAll_induction (motive := Counted) ?_ ?_ declarations
  · refine ⟨⟨rfl, rfl⟩, fun symbol => ?_⟩
    cases symbol with
    | terminal t => rcases t with ⟨_ | _ | i, hi⟩ <;> rfl
    | nonterminal n => rcases n with ⟨_ | i, hi⟩ <;> rfl
  · intro d d' _ step h
    cases step with
    | terminal _ _ =>
        exact ⟨by simpa using h.sized.addTerminal, fun symbol =>
          (UseCounts.of_addTerminal _ symbol).trans (h.of symbol)⟩
    | nonterminal _ _ =>
        exact ⟨by simpa using h.sized.addNonterminal, fun symbol =>
          (UseCounts.of_addNonterminal _ symbol).trans (h.of symbol)⟩
    | host _ =>
        exact ⟨by simpa using h.sized.addNonterminal, fun symbol =>
          (UseCounts.of_addNonterminal _ symbol).trans (h.of symbol)⟩
    | rule _ _ lhs rhs _ =>
        obtain ⟨hsized, hof⟩ := h.noteRule lhs rhs
        refine ⟨hsized, fun symbol => ?_⟩
        simp only [hof, Array.toList_push, List.flatMap_append, List.count_append,
          List.flatMap_singleton]
    | terminalType t type => exact ⟨by simpa using h.sized, h.of⟩
    | nonterminalType n type => exact ⟨by simpa using h.sized, h.of⟩
    | precedence t p => exact ⟨by simpa using h.sized, h.of⟩
    | level _ => exact ⟨h.sized, h.of⟩
    | start _ _ => exact ⟨h.sized, h.of⟩

theorem mentions_finishedRules (d : Draft) (start : NonterminalId) :
    (d.finishedRules start).toList.flatMap Rule.mentions =
      (startRule start).mentions ++ d.rules.toList.flatMap Rule.mentions := by
  simp [finishedRules, List.flatMap_map, Rule.mentions_inheritPrecedence]

theorem Counted.of_finish {d : Draft} (h : d.Counted) (hd : d.Sound) {start : NonterminalId}
    (hstart : d.start? = some start) (symbol : Symbol) :
    (d.uses.noteRule (startRule start)).of symbol =
      ((d.finishedRules start).toList.flatMap Rule.symbols).count symbol +
        (d.finishedRules start).toList.countP fun r => .nonterminal r.lhs = symbol := by
  rw [← Rule.count_mentions, mentions_finishedRules, List.count_append, Nat.add_comm]
  refine (h.noteRule ?_ ?_).2 symbol
  · exact decide_eq_true hd.nonterminals_pos
  · intro part hpart
    obtain rfl : part = ⟨.nonterminal start, none⟩ := by simpa [startRule] using hpart
    exact hd.declares_start? hstart

theorem Distinct.finishedRules {d : Draft} (h : d.Distinct) (hd : d.Sound) {start : NonterminalId}
    {i j : Nat} {r r' : Rule} (hi : (d.finishedRules start)[i]? = some r)
    (hj : (d.finishedRules start)[j]? = some r') (hlhs : r.lhs = r'.lhs)
    (hsymbols : r.symbols = r'.symbols) : i = j := by
  rcases getElem?_finishedRules hi with ⟨rfl, rfl⟩ | ⟨r, hr, hipos, rfl⟩ <;>
    rcases getElem?_finishedRules hj with ⟨rfl, rfl⟩ | ⟨r', hr', hjpos, rfl⟩ <;>
    simp only [Grammar.inheritPrecedence_lhs, Grammar.inheritPrecedence_rhs,
      Rule.symbols] at hlhs hsymbols
  · rfl
  · exact absurd hlhs.symm (hd.rule hr').2.1
  · exact absurd hlhs (hd.rule hr).2.1
  · have := h hr hr' hlhs hsymbols
    omega

end Draft

namespace Grammar

def occurrences (g : Grammar) (symbol : Symbol) : Nat :=
  (g.productions.toList.flatMap (·.symbols)).count symbol

/-- The registries of a grammar are in order. -/
structure Orderly (g : Grammar) : Prop where
  terminal_id : InPlace (fun t : Terminal => t.id.index) g.terminals
  nonterminal_id : InPlace (fun n : Nonterminal => n.id.index) g.nonterminals
  production_id : InPlace (fun p : Production => p.id.index) g.productions
  start_rule : g.HasRule .start .start [.nonterminal g.start]
  eq_start_of_lhs : ∀ p ∈ g.productions, p.lhs = .start → p.id = .start
  knows_lhs : ∀ p ∈ g.productions, g.Knows (.nonterminal p.lhs)
  knows_rhs : ∀ p ∈ g.productions, ∀ symbol ∈ p.symbols, g.Knows symbol
  rule_unique : ∀ p ∈ g.productions, ∀ p' ∈ g.productions, p.lhs = p'.lhs →
    p.symbols = p'.symbols → p.id = p'.id
  -- A nonterminal lists its productions, and only these, in the order of their numbers.
  productions_eq : ∀ n ∈ g.nonterminals,
    n.productions = (g.productions.toList.filter (·.lhs = n.id)).map (·.id)
  productions_sorted : ∀ n ∈ g.nonterminals, n.productions.Pairwise (· < ·)
  terminal_uses : ∀ t ∈ g.terminals, t.uses = g.occurrences (.terminal t.id)
  nonterminal_uses : ∀ n ∈ g.nonterminals, n.uses =
    g.occurrences (.nonterminal n.id) + g.productions.toList.countP (·.lhs = n.id)

theorem hasRule_of_mem {g : Grammar} (h : InPlace (fun p : Production => p.id.index) g.productions)
    {p : Production} (hp : p ∈ g.productions) : g.HasRule p.id p.lhs p.symbols :=
  ⟨p, h.getElem?_of_mem hp, rfl, rfl⟩

end Grammar

namespace Draft

variable {d : Draft} {start : NonterminalId}

theorem toRule_productions_grammar (d : Draft) (start : NonterminalId) :
    (d.grammar start).productions.toList.map Production.toRule =
      (d.finishedRules start).toList := by
  rw [grammar, assemble, Array.toList_map, List.map_map]
  exact List.map_id _

theorem occurrences_grammar (d : Draft) (start : NonterminalId) (symbol : Symbol) :
    (d.grammar start).occurrences symbol =
      ((d.finishedRules start).toList.flatMap Rule.symbols).count symbol := by
  rw [Grammar.occurrences, ← toRule_productions_grammar, List.flatMap_map]

theorem Sound.production_id_grammar (hd : d.Sound) (start : NonterminalId) :
    InPlace (fun p : Production => p.id.index) (d.grammar start).productions := by
  intro i p hp
  simp only [grammar, assemble, Array.getElem?_map] at hp
  obtain ⟨r, hr, rfl⟩ := Option.map_eq_some_iff.mp hp
  exact (hd.numbered start).id hr

theorem Sound.declares_lhs_grammar (hd : d.Sound) {p : Production}
    (hp : p ∈ (d.grammar start).productions) : d.declares (.nonterminal p.lhs) = true := by
  obtain ⟨r, hr, rfl⟩ := Array.mem_map.mp hp
  obtain ⟨i, hi⟩ := Array.getElem?_of_mem hr
  exact decide_eq_true ((hd.numbered start).lhs_lt hi)

theorem Distinct.hasRule_unique (h : d.Distinct) (hd : d.Sound) {p p' : ProductionId}
    {n : NonterminalId} {rhs : List Symbol} (hp : (d.grammar start).HasRule p n rhs)
    (hp' : (d.grammar start).HasRule p' n rhs) : p = p' := by
  obtain ⟨r, hr, rfl, rfl⟩ := hasRule_grammar.mp hp
  obtain ⟨r', hr', hlhs, hsymbols⟩ := hasRule_grammar.mp hp'
  exact Ident.ext_index (h.finishedRules hd hr hr' hlhs.symm hsymbols.symm)

theorem Sound.productions_grammar (hd : d.Sound) {n : Nonterminal}
    (hn : n ∈ (d.grammar start).nonterminals) : n.productions =
      ((d.grammar start).productions.toList.filter (·.lhs = n.id)).map (·.id) := by
  obtain ⟨decl, hdecl, rfl⟩ := hd.nonterminal_id.exists_of_mem_mapIdx hn
  obtain ⟨hlt, -⟩ := Array.getElem?_eq_some_iff.mp hdecl
  have hlist : ((d.grammar start).productions.toList.filter (·.lhs = decl.id)).map (·.id) =
      ((d.finishedRules start).toList.filter (·.lhs = decl.id)).map (·.id) := by
    rw [← toRule_productions_grammar, List.filter_map, List.map_map]
    rfl
  rw [hlist]
  simp only [getElem?_rulesByLhs, if_pos hlt, Option.getD_some, Ident.ext_index_iff]

theorem Sound.terminal_uses_grammar (hd : d.Sound) {t : Terminal}
    (ht : t ∈ (d.grammar start).terminals) :
    t.uses = (d.uses.noteRule (startRule start)).of (.terminal t.id) := by
  obtain ⟨decl, -, rfl⟩ := hd.terminal_id.exists_of_mem_mapIdx ht
  rfl

theorem Sound.nonterminal_uses_grammar (hd : d.Sound) {n : Nonterminal}
    (hn : n ∈ (d.grammar start).nonterminals) :
    n.uses = (d.uses.noteRule (startRule start)).of (.nonterminal n.id) := by
  obtain ⟨decl, -, rfl⟩ := hd.nonterminal_id.exists_of_mem_mapIdx hn
  rfl

end Draft

namespace Grammar

theorem orderly_grammar {d : Draft} (hd : d.Sound) (hcounted : d.Counted) (hdistinct : d.Distinct)
    {start : NonterminalId} (hstart : d.start? = some start) : (d.grammar start).Orderly := by
  have hwell := wellFormed_grammar hd hstart
  have hclosed := closed_grammar hd hstart
  have hproduction := hd.production_id_grammar start
  refine ⟨hd.terminal_id.mapIdx fun _ _ => rfl, hd.nonterminal_id_grammar start, hproduction,
    hwell.start_rule, ?_, ?_, ?_, ?_, fun n hn => hd.productions_grammar hn, ?_, ?_, ?_⟩
  · intro p hp hlhs
    exact hwell.eq_start_of_rule (hlhs ▸ hasRule_of_mem hproduction hp)
  · intro p hp
    exact knows_grammar (hd.declares_lhs_grammar hp)
  · intro p hp
    exact hclosed.rhs (hasRule_of_mem hproduction hp)
  · intro p hp p' hp' hlhs hsymbols
    have hrule := hasRule_of_mem hproduction hp
    rw [hlhs, hsymbols] at hrule
    exact hdistinct.hasRule_unique hd hrule (hasRule_of_mem hproduction hp')
  · intro n hn
    rw [hd.productions_grammar hn, List.pairwise_map]
    exact hproduction.pairwise.filter _
  · intro t ht
    rw [hd.terminal_uses_grammar ht, hcounted.of_finish hd hstart, Draft.occurrences_grammar]
    simp
  · intro n hn
    rw [hd.nonterminal_uses_grammar hn, hcounted.of_finish hd hstart, Draft.occurrences_grammar,
      ← Draft.toRule_productions_grammar, List.countP_map]
    simp only [Symbol.nonterminal.injEq]
    rfl

theorem orderly_of_define {declarations : List Declaration} {g : Grammar}
    (h : define declarations = .ok g) : g.Orderly := by
  obtain ⟨start, hstart, rfl⟩ := Draft.finish_eq_ok h
  exact orderly_grammar (Draft.sound_declareAll declarations)
    (Draft.counted_declareAll declarations) (Draft.distinct_declareAll declarations) hstart

/-- The grammar of `S ::= x {first} x` and `S ::= x`.  A terminal is declared twice, a rule twice,
and a rule mentions what is not declared. -/
def faltering : List Declaration :=
  [.terminal "x" none, .terminal "x" none, .nonterminal "S",
    .rule (.nth 1) [.terminal 2, .action "first", .terminal 2] none,
    .rule (.nth 1) [.terminal 2, .nonterminal 7] none,
    .rule (.nth 1) [.terminal 2] none,
    .rule (.nth 1) [.terminal 2] none]

theorem orderly_of_define_faltering :
    ∃ g, define faltering = .ok g ∧ g.Orderly ∧
      g.productions.toList.map (·.lhs.index) = [0, 2, 1, 1] ∧
      g.terminals.toList.map (·.uses) = [0, 0, 3] ∧
      g.nonterminals.toList.map (·.uses) = [1, 3, 2] := by
  obtain ⟨g, hg, hrun⟩ := @exists_define faltering (fun g =>
      g.productions.toList.map (·.lhs.index) = [0, 2, 1, 1] ∧
        g.terminals.toList.map (·.uses) = [0, 0, 3] ∧
        g.nonterminals.toList.map (·.uses) = [1, 3, 2]) (by decide +kernel)
  exact ⟨g, hg, orderly_of_define hg, of_decide_eq_true hrun⟩

end Grammar

end Lalr
