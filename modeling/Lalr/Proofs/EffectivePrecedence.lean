import Lalr.Proofs.EmbeddedActions
import Lalr.Proofs.RefusedLevels

namespace Lalr

structure Rule.IsHost (r : Rule) : Prop where
  origin : ∃ base offset, r.origin = .embedded base offset
  rhs : r.rhs = #[]
  precedence : r.precedence = none

namespace Draft

/-- Declarations that all succeed, each with what it makes known, lead from one draft to another. -/
inductive Run : Draft → List (Declaration × Declared) → Draft → Prop
  | nil (d : Draft) : Run d [] d
  | cons {d d' d'' : Draft} {declaration : Declaration} {made : Declared}
      {calls : List (Declaration × Declared)} (first : d.declare declaration = .succeed made d')
      (rest : Run d' calls d'') : Run d ((declaration, made) :: calls) d''

theorem exists_run {declarations : List Declaration} {d d' : Draft}
    (h : d.declareStrictly declarations = .succeed () d') :
    ∃ calls : List (Declaration × Declared),
      calls.map Prod.fst = declarations ∧ Run d calls d' := by
  induction declarations generalizing d with
  | nil =>
      cases h
      exact ⟨[], rfl, .nil _⟩
  | cons declaration later ih =>
      rcases hmade : d.declare declaration with ⟨e | made, next⟩
      · rw [declareStrictly, hmade] at h
        cases h
      · rw [declareStrictly, hmade] at h
        obtain ⟨calls, rfl, hrun⟩ := ih h
        exact ⟨(declaration, made) :: calls, rfl, .cons hmade hrun⟩

namespace Run

variable {d d' : Draft} {calls : List (Declaration × Declared)}

theorem eq_declareAll (h : d.Run calls d') : d' = d.declareAll (calls.map Prod.fst) := by
  induction h with
  | nil d => rfl
  | @cons d _ _ declaration _ calls first _ ih =>
      change _ = (d.declare declaration).state.declareAll (calls.map Prod.fst)
      rw [first]
      exact ih

theorem opens (h : d.Run calls d') (t : TerminalId) :
    d.opens t (calls.map Prod.fst) = true := by
  induction h with
  | nil d => rfl
  | cons first _ ih =>
      rw [List.map_cons, Draft.opens, first, Bool.and_eq_true]
      exact ⟨Bool.or_eq_true_iff.mpr (.inr rfl), ih⟩

end Run

theorem declareTerminal_eq_succeed {d d' : Draft} {name : String} {precedence : Option Precedence}
    {t : TerminalId} (h : d.declareTerminal name precedence = .succeed t d') :
    t.index = d.terminals.size ∧ d'.terminals = d.terminals.push ⟨t, name, none, precedence⟩ := by
  unfold declareTerminal at h
  split at h
  · cases h
  · split at h
    · cases h
    · rename_i id hnext
      cases h
      exact ⟨(Ident.next?_eq_some hnext).1, rfl⟩

theorem precedenceOn_declareTerminal {d d' : Draft} {name : String}
    {precedence : Option Precedence} {t : TerminalId}
    (h : d.declareTerminal name precedence = .succeed t d') :
    t.index < d'.terminals.size ∧ d'.precedenceOn t = precedence := by
  obtain ⟨hindex, hterminals⟩ := declareTerminal_eq_succeed h
  rw [precedenceOn, hterminals, Roster.size_push, hindex]
  refine ⟨Nat.lt_succ_self _, ?_⟩
  rw [Roster.push, Roster.size, Array.getElem?_push_size]
  rfl

theorem declare_keeps (d : Draft) (declaration : Declaration) :
    ((∀ name precedence, declaration ≠ .terminal name precedence) →
        (d.declare declaration).state.terminals.size = d.terminals.size) ∧
      ((∀ lhs parts precedence, declaration ≠ .rule lhs parts precedence) →
        (d.declare declaration).state.rules = d.rules) := by
  cases declaration with
  | terminal name precedence =>
      refine ⟨fun h => absurd rfl (h name precedence), fun _ => ?_⟩
      simp only [declare, Attempt.map_state, declareTerminal]
      split
      · rfl
      · split <;> rfl
  | nonterminal name =>
      simp only [declare, Attempt.map_state, declareNonterminal, addNonterminal]
      split
      · exact ⟨fun _ => rfl, fun _ => rfl⟩
      · split <;> exact ⟨fun _ => rfl, fun _ => rfl⟩
  | valueType symbol type =>
      simp only [declare, Attempt.map_state, declareType]
      split
      · cases symbol with
        | terminal t => exact ⟨fun _ => by simp [Attempt.succeed], fun _ => rfl⟩
        | nonterminal n => exact ⟨fun _ => rfl, fun _ => rfl⟩
      · exact ⟨fun _ => rfl, fun _ => rfl⟩
  | level associativity ts =>
      simp only [declare, Attempt.map_state, declareLevel]
      split
      · obtain ⟨terminals, hstate, -⟩ := assignPrecedence_rest ⟨d.nextLevel, associativity⟩
          { d with nextLevel := d.nextLevel + 1 } ts
        exact ⟨fun _ => size_assignPrecedence _ _ _, fun _ => by rw [hstate]⟩
      · exact ⟨fun _ => rfl, fun _ => rfl⟩
  | rule lhs parts precedence =>
      have hterminals := (declareRule_keeps d lhs parts precedence).1
      exact ⟨fun _ => congrArg Roster.size hterminals,
        fun h => absurd rfl (h lhs parts precedence)⟩
  | start n =>
      simp only [declare, Attempt.map_state, declareStart]
      split <;> exact ⟨fun _ => rfl, fun _ => rfl⟩

inductive Brings : Declaration → Declared → List Rule → Prop
  | rule {parts : List RulePart} {before : List Rule} {r : Rule}
      (hosts : ∀ host ∈ before, host.IsHost) (declared : r.origin = .declared) :
      Brings (.rule r.lhs parts r.precedence) (.production r.id) (before ++ [r])
  | other {declaration : Declaration} {made : Declared}
      (h : ∀ lhs parts precedence, declaration ≠ .rule lhs parts precedence) :
      Brings declaration made []

theorem exists_brings {d d' : Draft} {declaration : Declaration} {made : Declared}
    (h : d.declare declaration = .succeed made d') :
    ∃ rules, d'.rules.toList = d.rules.toList ++ rules ∧ Brings declaration made rules := by
  by_cases hrule : ∃ lhs parts precedence, declaration = .rule lhs parts precedence
  · obtain ⟨lhs, parts, precedence, rfl⟩ := hrule
    obtain ⟨base, hmade, rfl⟩ := Attempt.map_eq_succeed h
    obtain ⟨-, left, rhs, hosts, -, hplaces, hadopts⟩ := adopts_of_declareRule hmade
    let r : Rule := ⟨base, lhs, rhs, RulePart.closing parts, precedence, .declared⟩
    have hhosts : ∀ rule ∈ hosts.map Host.rule, rule.IsHost := by
      intro rule hrule
      obtain ⟨host, hhost, rfl⟩ := List.mem_map.mp hrule
      obtain ⟨offset, code, hruns⟩ := hplaces.exists_runs hhost
      exact ⟨⟨base, offset, hruns.origin⟩, hruns.rhs, hruns.precedence⟩
    exact ⟨_, hadopts.rules, @Brings.rule parts _ r hhosts rfl⟩
  · have hother : ∀ lhs parts precedence, declaration ≠ .rule lhs parts precedence :=
      fun lhs parts precedence heq => hrule ⟨lhs, parts, precedence, heq⟩
    have hrules := (declare_keeps d declaration).2 hother
    rw [h] at hrules
    refine ⟨[], ?_, .other hother⟩
    rw [List.append_nil]
    exact congrArg Array.toList hrules

namespace Run

variable {d d' : Draft} {calls : List (Declaration × Declared)}

theorem exists_terminal (h : d.Run calls d') {t : TerminalId} (ht : t.index < d'.terminals.size) :
    t.index < d.terminals.size ∨
      ∃ name precedence, (.terminal name precedence, .terminal t) ∈ calls := by
  induction h with
  | nil d => exact .inl ht
  | @cons d next _ declaration made calls first _ ih =>
      rcases ih ht with hnext | ⟨name, precedence, hmem⟩
      · by_cases hterminal : ∃ name precedence, declaration = .terminal name precedence
        · obtain ⟨name, precedence, rfl⟩ := hterminal
          obtain ⟨u, hmade, rfl⟩ := Attempt.map_eq_succeed first
          obtain ⟨hindex, hterminals⟩ := declareTerminal_eq_succeed hmade
          rw [hterminals, Roster.size_push, Nat.lt_succ_iff_lt_or_eq, ← hindex] at hnext
          rcases hnext with hlt | heq
          · exact .inl (hindex ▸ hlt)
          · rw [Ident.ext_index heq]
            exact .inr ⟨name, precedence, List.mem_cons_self⟩
        · have hsize := (declare_keeps d declaration).1 fun name precedence heq =>
            hterminal ⟨name, precedence, heq⟩
          rw [first] at hsize
          exact .inl (hsize ▸ hnext)
      · exact .inr ⟨name, precedence, List.mem_cons_of_mem _ hmem⟩

theorem precedenceOn_eq (h : d.Run calls d') {name : String} {precedence : Option Precedence}
    {t : TerminalId} (hcall : (.terminal name precedence, .terminal t) ∈ calls)
    (hnot : ∀ level ∈ levels (calls.map Prod.fst), t ∉ level.terminals) :
    d'.precedenceOn t = precedence := by
  induction h with
  | nil d => cases hcall
  | @cons d next d' declaration made calls first rest ih =>
      have hlater : ∀ level ∈ levels (calls.map Prod.fst), t ∉ level.terminals :=
        fun level hlevel => hnot level (mem_levels_cons hlevel)
      rcases List.mem_cons.mp hcall with heq | hcall
      · cases heq
        obtain ⟨u, hmade, heq⟩ := Attempt.map_eq_succeed first
        cases heq
        obtain ⟨hlt, hgiven⟩ := precedenceOn_declareTerminal hmade
        rw [rest.eq_declareAll, precedenceOn_declareAll_of_notMem hlt hlater, hgiven]
      · exact ih hcall hlater

theorem mem_rules_of_mem (h : d.Run calls d') {r : Rule} (hr : r ∈ d.rules) : r ∈ d'.rules := by
  induction h with
  | nil d => exact hr
  | cons first _ ih =>
      obtain ⟨rules, heq, -⟩ := exists_brings first
      apply ih
      rw [← Array.mem_toList_iff, heq]
      exact List.mem_append_left _ (Array.mem_toList_iff.mpr hr)

theorem exists_rule (h : d.Run calls d') {lhs : NonterminalId} {parts : List RulePart}
    {precedence : Option Precedence} {made : Declared}
    (hcall : (.rule lhs parts precedence, made) ∈ calls) :
    ∃ r ∈ d'.rules, made = .production r.id ∧ r.lhs = lhs ∧ r.precedence = precedence ∧
      r.origin = .declared := by
  induction h with
  | nil d => cases hcall
  | cons first rest ih =>
      rcases List.mem_cons.mp hcall with heq | hcall
      · cases heq
        obtain ⟨rules, heq, hbrings⟩ := exists_brings first
        cases hbrings with
        | @rule _ _ r _ declared =>
            refine ⟨r, rest.mem_rules_of_mem ?_, rfl, rfl, rfl, declared⟩
            rw [← Array.mem_toList_iff, heq]
            simp
        | other h => exact absurd rfl (h lhs parts precedence)
      · exact ih hcall

/-- Rules come in by being declared, or they host an action. -/
theorem mem_rules (h : d.Run calls d') {r : Rule} (hr : r ∈ d'.rules) :
    r ∈ d.rules ∨ r.IsHost ∨ r.origin = .declared ∧
      ∃ parts, (.rule r.lhs parts r.precedence, .production r.id) ∈ calls := by
  induction h with
  | nil d => exact .inl hr
  | cons first _ ih =>
      rcases ih hr with hnext | hhost | ⟨hdeclared, parts, hmem⟩
      · obtain ⟨rules, heq, hbrings⟩ := exists_brings first
        rw [← Array.mem_toList_iff, heq, List.mem_append, Array.mem_toList_iff] at hnext
        rcases hnext with hold | hnew
        · exact .inl hold
        · cases hbrings with
          | @rule parts _ _ hosts declared =>
              rcases List.mem_append.mp hnew with hhost | hlast
              · exact .inr (.inl (hosts r hhost))
              · obtain rfl := List.mem_singleton.mp hlast
                exact .inr (.inr ⟨declared, parts, List.mem_cons_self⟩)
          | other _ => cases hnew
      · exact .inr (.inl hhost)
      · exact .inr (.inr ⟨hdeclared, parts, List.mem_cons_of_mem _ hmem⟩)

end Run

theorem toList_finishedRules (d : Draft) (start : NonterminalId) :
    (d.finishedRules start).toList =
      (startRule start :: d.rules.toList).map (·.inheritPrecedence d.terminals.entries) := by
  simp [finishedRules]

theorem exists_production (d : Draft) (start : NonterminalId) {r : Rule} (hr : r ∈ d.rules) :
    ∃ p ∈ (d.grammar start).productions, p.toRule = r.inheritPrecedence d.terminals.entries := by
  have hmem : r.inheritPrecedence d.terminals.entries ∈
      (d.grammar start).productions.toList.map Production.toRule := by
    rw [toRule_productions_grammar, toList_finishedRules]
    exact List.mem_map_of_mem (List.mem_cons_of_mem _ (Array.mem_toList_iff.mpr hr))
  obtain ⟨p, hp, heq⟩ := List.mem_map.mp hmem
  exact ⟨p, Array.mem_toList_iff.mp hp, heq⟩

theorem exists_toRule {d : Draft} {start : NonterminalId} {p : Production}
    (hp : p ∈ (d.grammar start).productions) :
    ∃ r, (r = startRule start ∨ r ∈ d.rules) ∧
      p.toRule = r.inheritPrecedence d.terminals.entries := by
  have hmem : p.toRule ∈ (d.grammar start).productions.toList.map Production.toRule :=
    List.mem_map_of_mem (Array.mem_toList_iff.mpr hp)
  rw [toRule_productions_grammar, toList_finishedRules] at hmem
  obtain ⟨r, hr, heq⟩ := List.mem_map.mp hmem
  rw [List.mem_cons, Array.mem_toList_iff] at hr
  exact ⟨r, hr, heq.symm⟩

end Draft

namespace Grammar

theorem keeps_of_toRule {p : Production} {r : Rule} {terminals : Array TerminalDecl}
    (h : p.toRule = r.inheritPrecedence terminals) :
    p.id = r.id ∧ p.lhs = r.lhs ∧ p.origin = r.origin ∧ p.symbols = r.symbols := by
  rw [h, inheritPrecedence_id, inheritPrecedence_lhs, inheritPrecedence_origin, Rule.symbols,
    inheritPrecedence_rhs]
  exact ⟨rfl, rfl, rfl, rfl⟩

theorem inheritPrecedence_of_some (terminals : Array TerminalDecl) {r : Rule} {p : Precedence}
    (h : r.precedence = some p) : (r.inheritPrecedence terminals).precedence = some p := by
  unfold Rule.inheritPrecedence
  rw [h]
  exact h

/-- What a right side confers on its production: the precedence of its rightmost terminal that has
one. -/
inductive Confers (g : Grammar) : List Symbol → Option Precedence → Prop
  | rightmost {u v : List Symbol} {t : TerminalId} {p : Precedence}
      (ht : g.precedenceOn t = some p)
      (last : ∀ t', .terminal t' ∈ v → g.precedenceOn t' = none) :
      Confers g (u ++ .terminal t :: v) (some p)
  | none {symbols : List Symbol} (h : ∀ t, .terminal t ∈ symbols → g.precedenceOn t = none) :
      Confers g symbols none

theorem confers_inheritPrecedence (d : Draft) (start : NonterminalId) {r : Rule}
    (hr : r.precedence = none) : (d.grammar start).Confers r.symbols
      (r.inheritPrecedence d.terminals.entries).precedence := by
  rw [Draft.inheritPrecedence_of_none hr]
  rcases hfound : r.symbols.reverse.findSome? _ with _ | p
  · refine .none fun t ht => ?_
    rw [Draft.precedenceOn_grammar]
    exact List.findSome?_eq_none_iff.mp hfound _ (List.mem_reverse.mpr ht)
  · obtain ⟨v, symbol, u, hsplit, hsymbol, hlast⟩ := List.findSome?_eq_some_iff.mp hfound
    have hsymbols : r.symbols = u.reverse ++ symbol :: v.reverse := by
      rw [← List.reverse_reverse r.symbols, hsplit]
      simp
    cases symbol with
    | terminal t =>
        rw [hsymbols]
        refine .rightmost ((Draft.precedenceOn_grammar d start t).trans hsymbol) fun t' ht' => ?_
        rw [Draft.precedenceOn_grammar]
        exact hlast _ (List.mem_reverse.mp ht')
    | nonterminal n => cases hsymbol

/-- What declarations that all succeed say of precedences, whatever their order. -/
structure RankedBy (g : Grammar) (calls : List (Declaration × Declared)) : Prop where
  -- Levels are numbered as they come, and a terminal is on a new level at once.
  opened : ∀ {before after : List (Declaration × Declared)} {associativity : Associativity}
    {ts : List TerminalId} {made : Declared},
    calls = before ++ (.level associativity ts, made) :: after → ∀ t ∈ ts,
      (Draft.initial.declareAll (before.map Prod.fst ++ [.level associativity ts])).precedenceOn t =
        some ⟨(levels (before.map Prod.fst)).length + 1, associativity⟩
  -- The last level that names a terminal counts.
  named : ∀ {below above : List Level} {level : Level} {t : TerminalId},
    levels (calls.map Prod.fst) = below ++ level :: above → t ∈ level.terminals →
      (∀ other ∈ above, t ∉ other.terminals) →
        g.precedenceOn t = some ⟨below.length + 1, level.associativity⟩
  unnamed : ∀ {name : String} {precedence : Option Precedence} {t : TerminalId},
    (.terminal name precedence, .terminal t) ∈ calls →
      (∀ level ∈ levels (calls.map Prod.fst), t ∉ level.terminals) → g.precedenceOn t = precedence
  reserved : ∀ t : TerminalId, t = .eof ∨ t = .error →
    (∀ level ∈ levels (calls.map Prod.fst), t ∉ level.terminals) → g.precedenceOn t = none
  terminals : ∀ t, g.Knows (.terminal t) → t = .eof ∨ t = .error ∨
    ∃ name precedence, (.terminal name precedence, .terminal t) ∈ calls
  rule : ∀ {lhs : NonterminalId} {parts : List RulePart} {precedence : Option Precedence}
    {made : Declared}, (.rule lhs parts precedence, made) ∈ calls →
      ∃ p ∈ g.productions, made = .production p.id ∧ p.lhs = lhs ∧ p.origin = .declared ∧
        (∀ given, precedence = some given → p.precedence = some given) ∧
        (precedence = none → g.Confers p.symbols p.precedence)
  unranked : ∀ p ∈ g.productions,
    (p.id = .start ∨ ∃ base offset, p.origin = .embedded base offset) → p.precedence = none
  productions : ∀ p ∈ g.productions, p.id = .start ∨
    (∃ base offset, p.origin = .embedded base offset) ∨
      ∃ lhs parts precedence, (.rule lhs parts precedence, .production p.id) ∈ calls

end Grammar

namespace Draft.Run

variable {d : Draft} {calls : List (Declaration × Declared)} {start : NonterminalId}
  (h : initial.Run calls d)

include h

theorem precedenceOn_last {t : TerminalId} {below above : List Level} {level : Level}
    (hlevels : levels (calls.map Prod.fst) = below ++ level :: above) (ht : t ∈ level.terminals)
    (hlast : ∀ other ∈ above, t ∉ other.terminals) :
    d.precedenceOn t = some ⟨below.length + 1, level.associativity⟩ := by
  rw [h.eq_declareAll, precedenceOn_declareAll (by decide) (h.opens t) hlevels ht hlast,
    Nat.add_comm]
  rfl

theorem precedenceOn_opened {before after : List (Declaration × Declared)}
    {associativity : Associativity} {ts : List TerminalId} {made : Declared}
    (hcalls : calls = before ++ (.level associativity ts, made) :: after) {t : TerminalId}
    (ht : t ∈ ts) :
    (initial.declareAll (before.map Prod.fst ++ [.level associativity ts])).precedenceOn t =
      some ⟨(levels (before.map Prod.fst)).length + 1, associativity⟩ := by
  have hopens := h.opens t
  rw [hcalls, List.map_append, List.map_cons, List.append_cons, opens_append,
    Bool.and_eq_true] at hopens
  have hlevels : levels (before.map Prod.fst ++ [.level associativity ts]) =
      levels (before.map Prod.fst) ++ [⟨associativity, ts⟩] := by
    rw [levels, List.filterMap_append]
    rfl
  rw [precedenceOn_declareAll (by decide) hopens.1 hlevels ht (by simp), Nat.add_comm]
  rfl

theorem precedenceOn_reserved {t : TerminalId} (ht : t = .eof ∨ t = .error)
    (hnot : ∀ level ∈ levels (calls.map Prod.fst), t ∉ level.terminals) :
    d.precedenceOn t = none := by
  rw [h.eq_declareAll]
  rcases ht with rfl | rfl
  · exact precedenceOn_declareAll_of_notMem (by decide) hnot
  · exact precedenceOn_declareAll_of_notMem (by decide) hnot

theorem terminal_cases {t : TerminalId} (ht : t.index < d.terminals.size) :
    t = .eof ∨ t = .error ∨
      ∃ name precedence, (.terminal name precedence, .terminal t) ∈ calls := by
  rcases h.exists_terminal ht with hlt | hcall
  · have htwo : t.index < 2 := hlt
    rcases Nat.lt_succ_iff_lt_or_eq.mp htwo with hzero | hone
    · exact .inl (Ident.ext_index (Nat.lt_one_iff.mp hzero))
    · exact .inr (.inl (Ident.ext_index hone))
  · exact .inr (.inr hcall)

theorem production_cases {p : Production} (hp : p ∈ (d.grammar start).productions) :
    (p.id = .start ∨ ∃ base offset, p.origin = .embedded base offset) ∧ p.precedence = none ∨
      p.id ≠ .start ∧ p.origin = .declared ∧
        ∃ lhs parts precedence, (.rule lhs parts precedence, .production p.id) ∈ calls := by
  have hsound : d.Sound := h.eq_declareAll ▸ sound_declareAll _
  obtain ⟨r, hr, heq⟩ := exists_toRule hp
  obtain ⟨hid, -, horigin, -⟩ := Grammar.keeps_of_toRule heq
  rw [hid, horigin, heq]
  rcases hr with rfl | hr
  · exact .inl ⟨.inl rfl, inheritPrecedence_of_none rfl⟩
  · rcases h.mem_rules hr with hold | hhost | ⟨hdeclared, parts, hcall⟩
    · cases Array.not_mem_empty r hold
    · refine .inl ⟨.inr hhost.origin, ?_⟩
      rw [inheritPrecedence_of_none hhost.precedence, Rule.symbols, hhost.rhs]
      rfl
    · refine .inr ⟨fun hstart => ?_, hdeclared, r.lhs, parts, r.precedence, hcall⟩
      obtain ⟨i, hi⟩ := Array.getElem?_of_mem hr
      have hindex := (hsound.rule hi).1
      rw [hstart] at hindex
      cases hindex

theorem production_of_rule {lhs : NonterminalId} {parts : List RulePart}
    {precedence : Option Precedence} {made : Declared}
    (hcall : (.rule lhs parts precedence, made) ∈ calls) :
    ∃ p ∈ (d.grammar start).productions, made = .production p.id ∧ p.lhs = lhs ∧
      p.origin = .declared ∧ (∀ given, precedence = some given → p.precedence = some given) ∧
        (precedence = none → (d.grammar start).Confers p.symbols p.precedence) := by
  obtain ⟨r, hr, rfl, rfl, rfl, hdeclared⟩ := h.exists_rule hcall
  obtain ⟨p, hp, heq⟩ := exists_production d start hr
  obtain ⟨hid, hlhs, horigin, hsymbols⟩ := Grammar.keeps_of_toRule heq
  refine ⟨p, hp, congrArg Declared.production hid.symm, hlhs, horigin.trans hdeclared,
    fun given hgiven => ?_, fun hnone => ?_⟩
  · rw [heq]
    exact Grammar.inheritPrecedence_of_some _ hgiven
  · rw [hsymbols, heq]
    exact Grammar.confers_inheritPrecedence d start hnone

end Draft.Run

namespace Grammar

/-- Where the levels and the rules stand among one another does not matter, nor how often a terminal
is named: the last level that names it counts for all productions. -/
theorem rankedBy_of_defineStrictly {declarations : List Declaration} {g : Grammar}
    (h : defineStrictly declarations = .ok g) :
    ∃ calls d, calls.map Prod.fst = declarations ∧ Draft.initial.Run calls d ∧
      d.finish = .ok g ∧ g.RankedBy calls := by
  rcases hmade : Draft.initial.declareStrictly declarations with ⟨e | ⟨⟩, d⟩
  · rw [defineStrictly, hmade] at h
    cases h
  · rw [defineStrictly, hmade] at h
    obtain ⟨calls, rfl, hrun⟩ := Draft.exists_run hmade
    obtain ⟨start, -, rfl⟩ := Draft.finish_eq_ok h
    refine ⟨calls, d, rfl, hrun, h, ?_⟩
    constructor
    case opened => exact fun hcalls t ht => hrun.precedenceOn_opened hcalls ht
    case named =>
      intro below above level t hlevels ht hlast
      rw [Draft.precedenceOn_grammar]
      exact hrun.precedenceOn_last hlevels ht hlast
    case unnamed =>
      intro name precedence t hcall hnot
      rw [Draft.precedenceOn_grammar]
      exact hrun.precedenceOn_eq hcall hnot
    case reserved =>
      intro t ht hnot
      rw [Draft.precedenceOn_grammar]
      exact hrun.precedenceOn_reserved ht hnot
    case terminals =>
      intro t ht
      refine hrun.terminal_cases ?_
      simpa [Knows, Draft.grammar, Draft.assemble, Roster.size] using ht
    case rule => exact fun hcall => hrun.production_of_rule hcall
    case unranked =>
      intro p hp hkind
      rcases hrun.production_cases hp with ⟨-, hnone⟩ | ⟨hid, horigin, -⟩
      · exact hnone
      · rcases hkind with hstart | ⟨base, offset, hembedded⟩
        · exact absurd hstart hid
        · rw [horigin] at hembedded
          cases hembedded
    case productions =>
      intro p hp
      rcases hrun.production_cases hp with ⟨hkind, -⟩ | ⟨-, -, hcall⟩
      · exact hkind.elim .inl fun hembedded => .inr (.inl hembedded)
      · exact .inr (.inr hcall)

/-- Levels among the rules of an expression grammar: `+` is named before its rules and again after
them, `*` has a precedence of its own, and `x` has none. -/
def shuffled : List Declaration :=
  [.terminal "+" none, .terminal "*" (some ⟨7, .right⟩), .nonterminal "E", .level .left [.nth 2],
    .rule (.nth 1) [.nonterminal 1, .terminal 2, .nonterminal 1, .terminal 3, .nonterminal 1] none,
    .terminal "x" none,
    .rule (.nth 1) [.nonterminal 1, .action "a", .terminal 2, .terminal 4] none,
    .level .nonassoc [.error],
    .rule (.nth 1) [.terminal 2, .terminal 4] (some ⟨9, .left⟩),
    .level .right [.nth 2]]

/-- The second rule passes over `x` and inherits from `+` what the third level says. -/
theorem rankedBy_of_defineStrictly_shuffled :
    ∃ g, defineStrictly shuffled = .ok g ∧
      (∃ calls d, calls.map Prod.fst = shuffled ∧ Draft.initial.Run calls d ∧
        d.finish = .ok g ∧ g.RankedBy calls) ∧
      [.error, .nth 2, .nth 3, .nth 4].map g.precedenceOn =
        [some ⟨2, .nonassoc⟩, some ⟨3, .right⟩, some ⟨7, .right⟩, none] ∧
      g.productions.toList.map (·.precedence) =
        [none, some ⟨7, .right⟩, none, some ⟨3, .right⟩, some ⟨9, .left⟩] := by
  have hrun : (defineStrictly shuffled).toOption.any (fun g =>
      [.error, .nth 2, .nth 3, .nth 4].map g.precedenceOn =
        [some ⟨2, .nonassoc⟩, some ⟨3, .right⟩, some ⟨7, .right⟩, none] ∧
      g.productions.toList.map (·.precedence) =
        [none, some ⟨7, .right⟩, none, some ⟨3, .right⟩, some ⟨9, .left⟩]) = true := by
    decide +kernel
  rcases hg : defineStrictly shuffled with e | g
  · rw [hg] at hrun
    cases hrun
  · rw [hg] at hrun
    exact ⟨g, rfl, rankedBy_of_defineStrictly hg, of_decide_eq_true hrun⟩

end Grammar

end Lalr
