import Lalr.Proofs.Registries
import Lalr.Proofs.RefusedRules
import Lalr.Proofs.Resolution

namespace Lalr

/-- What one precedence call says: its terminals, and how they associate with one another. -/
structure Level where
  associativity : Associativity
  terminals : List TerminalId
  deriving DecidableEq

def Declaration.level? : Declaration → Option Level
  | .level associativity ts => some ⟨associativity, ts⟩
  | _ => none

/-- The levels that some declarations open, the lowest one first. -/
def levels (declarations : List Declaration) : List Level :=
  declarations.filterMap Declaration.level?

theorem mem_levels_cons {declaration : Declaration} {later : List Declaration} {level : Level}
    (h : level ∈ levels later) : level ∈ levels (declaration :: later) := by
  obtain ⟨other, hother, heq⟩ := List.mem_filterMap.mp h
  exact List.mem_filterMap.mpr ⟨other, List.mem_cons_of_mem _ hother, heq⟩

namespace Draft

/-- Whether all those precedence calls succeed that name a terminal; others may fail. -/
def opens (d : Draft) (t : TerminalId) : List Declaration → Bool
  | [] => true
  | declaration :: later =>
    (declaration.level?.all (!·.terminals.contains t) || (d.declare declaration).outcome.isOk) &&
      (d.declare declaration).state.opens t later

theorem opens_append (d : Draft) (t : TerminalId) (before later : List Declaration) :
    d.opens t (before ++ later) = (d.opens t before && (d.declareAll before).opens t later) := by
  induction before generalizing d with
  | nil => simp [opens, declareAll]
  | cons declaration before ih =>
      rw [List.cons_append, opens, opens, ih, Bool.and_assoc]
      rfl

/-- The precedence that a terminal has so far. -/
def precedenceOn (d : Draft) (t : TerminalId) : Option Precedence :=
  d.terminals.entries[t.index]?.bind (·.precedence)

theorem declareRule_keeps (d : Draft) (lhs : NonterminalId) (parts : List RulePart)
    (precedence : Option Precedence) :
    (d.declareRule lhs parts precedence).state.terminals = d.terminals ∧
      (d.declareRule lhs parts precedence).state.nextLevel = d.nextLevel := by
  rcases declareRule_cases d lhs parts precedence with ⟨-, e, heq⟩ |
    ⟨hadmits, base, decl, -, -, heq⟩
  · rw [heq]
    exact ⟨rfl, rfl⟩
  · have hle := hadmits.base_le
    have hfits : d.rules.size + (RulePart.body parts).countP RulePart.isAction < 65535 := by
      rw [← RulePart.hosted]
      omega
    obtain ⟨d', hhosting, hresult⟩ := hosting_hostActions base decl.valueType #[] hfits
    obtain ⟨⟨hterminals, -⟩, -, hlevel, -⟩ := hhosting.hosted
    rw [heq]
    rcases hresult with ⟨-, rhs, hok⟩ | ⟨-, hfail⟩
    · rw [hok, Attempt.andThen_succeed, addRule]
      split <;> exact ⟨hterminals, hlevel⟩
    · rw [hfail]
      exact ⟨hterminals, hlevel⟩

/-- A change that keeps a terminal and its precedence. -/
structure Spares (t : TerminalId) (d d' : Draft) : Prop where
  declared : t.index < d.terminals.size → t.index < d'.terminals.size
  precedenceOn : t.index < d.terminals.size → d'.precedenceOn t = d.precedenceOn t

theorem Spares.of_eq {t : TerminalId} {d d' : Draft} (h : d'.terminals = d.terminals) :
    Spares t d d' where
  declared := by rw [h]; exact id
  precedenceOn := fun _ => by rw [Draft.precedenceOn, h, Draft.precedenceOn]

variable {t : TerminalId}

theorem spares_declareTerminal (d : Draft) (name : String) (precedence : Option Precedence) :
    Spares t d (d.declareTerminal name precedence).state := by
  unfold declareTerminal
  split
  · exact .of_eq rfl
  · split
    · exact .of_eq rfl
    · refine ⟨fun ht => ?_, fun ht => ?_⟩
      · rw [Attempt.succeed, Roster.size_push]
        exact Nat.lt_succ_of_lt ht
      · have hlt : t.index < d.terminals.entries.size := ht
        simp [Draft.precedenceOn, Attempt.succeed, Roster.push, Array.getElem?_push,
          Nat.ne_of_lt hlt]

theorem spares_declareType (d : Draft) (symbol : Symbol) (type : String) :
    Spares t d (d.declareType symbol type).state := by
  unfold declareType
  split
  · cases symbol with
    | terminal u =>
        refine ⟨by simp [Attempt.succeed], fun _ => ?_⟩
        simp only [Draft.precedenceOn, Attempt.succeed, Roster.modify, Array.getElem?_modify]
        split
        · cases d.terminals.entries[t.index]? <;> rfl
        · rfl
    | nonterminal n => exact .of_eq rfl
  · exact .of_eq rfl

theorem size_assignPrecedence (p : Precedence) (d : Draft) (ts : List TerminalId) :
    (d.assignPrecedence p ts).state.terminals.size = d.terminals.size := by
  induction ts generalizing d with
  | nil => rfl
  | cons u ts ih =>
      unfold assignPrecedence
      split
      · rw [ih, Roster.size_modify]
      · rfl

theorem nextLevel_assignPrecedence (p : Precedence) (d : Draft) (ts : List TerminalId) :
    (d.assignPrecedence p ts).state.nextLevel = d.nextLevel := by
  induction ts generalizing d with
  | nil => rfl
  | cons u ts ih =>
      unfold assignPrecedence
      split
      · exact ih _
      · rfl

theorem precedenceOn_modify (d : Draft) (u : TerminalId) (p : Precedence) :
    precedenceOn { d with
        terminals := d.terminals.modify u.index ({ · with precedence := some p }) fun _ => rfl } t =
      if t = u ∧ t.index < d.terminals.size then some p else d.precedenceOn t := by
  simp only [precedenceOn, Roster.modify, Array.getElem?_modify, Roster.size]
  by_cases htu : t = u
  · subst htu
    by_cases hlt : t.index < d.terminals.entries.size <;> simp [hlt]
  · have hne : u.index ≠ t.index := fun heq => htu (Ident.ext_index heq.symm)
    simp [htu, hne]

theorem precedenceOn_assignPrecedence_of_notMem {p : Precedence} {ts : List TerminalId}
    (h : t ∉ ts) (d : Draft) :
    (d.assignPrecedence p ts).state.precedenceOn t = d.precedenceOn t := by
  induction ts generalizing d with
  | nil => rfl
  | cons u ts ih =>
      obtain ⟨hne, hnot⟩ := List.ne_and_not_mem_of_not_mem_cons h
      unfold assignPrecedence
      split
      · rw [ih hnot, precedenceOn_modify, if_neg fun heq => hne heq.1]
      · rfl

theorem precedenceOn_assignPrecedence {p : Precedence} {d d' : Draft} {ts : List TerminalId}
    (h : d.assignPrecedence p ts = ⟨.ok (), d'⟩) (ht : t ∈ ts) :
    t.index < d.terminals.size ∧ d'.precedenceOn t = some p := by
  induction ts generalizing d with
  | nil => cases ht
  | cons u ts ih =>
      unfold assignPrecedence at h
      split at h
      · rename_i hu
        rw [declares, decide_eq_true_eq] at hu
        by_cases hmem : t ∈ ts
        · have hrest := ih h hmem
          rwa [Roster.size_modify] at hrest
        · obtain rfl := (List.mem_cons.mp ht).resolve_right hmem
          have hkept := precedenceOn_assignPrecedence_of_notMem (p := p) hmem { d with
            terminals := d.terminals.modify t.index ({ · with precedence := some p }) fun _ => rfl }
          rw [h, precedenceOn_modify, if_pos ⟨rfl, hu⟩] at hkept
          exact ⟨hu, hkept⟩
      · cases h

theorem spares_declareLevel {ts : List TerminalId} (h : t ∉ ts) (d : Draft)
    (associativity : Associativity) : Spares t d (d.declareLevel associativity ts).state := by
  unfold declareLevel
  split
  · refine ⟨fun ht => ?_, fun _ => ?_⟩
    · rw [size_assignPrecedence]
      exact ht
    · rw [precedenceOn_assignPrecedence_of_notMem h]
      rfl
  · exact .of_eq rfl

theorem spares_declare (d : Draft) {declaration : Declaration}
    (h : ∀ level ∈ declaration.level?, t ∉ level.terminals) :
    Spares t d (d.declare declaration).state := by
  cases declaration with
  | terminal name precedence => exact spares_declareTerminal d name precedence
  | nonterminal name =>
      change Spares t d (d.declareNonterminal name).state
      unfold declareNonterminal addNonterminal
      split
      · exact .of_eq rfl
      · split <;> exact .of_eq rfl
  | valueType symbol type => exact spares_declareType d symbol type
  | level associativity ts => exact spares_declareLevel (h _ rfl) d associativity
  | rule lhs parts precedence => exact .of_eq (declareRule_keeps d lhs parts precedence).1
  | start n =>
      change Spares t d (d.declareStart n).state
      unfold declareStart
      split <;> exact .of_eq rfl

theorem precedenceOn_declareAll_of_notMem {d : Draft} {declarations : List Declaration}
    (ht : t.index < d.terminals.size)
    (hnot : ∀ level ∈ levels declarations, t ∉ level.terminals) :
    (d.declareAll declarations).precedenceOn t = d.precedenceOn t := by
  induction declarations generalizing d with
  | nil => rfl
  | cons declaration later ih =>
      have hspares := spares_declare d (t := t) fun level hlevel => hnot level
        (List.mem_filterMap.mpr ⟨declaration, List.mem_cons_self, hlevel⟩)
      change ((d.declare declaration).state.declareAll later).precedenceOn t = _
      rw [ih (hspares.declared ht), hspares.precedenceOn ht]
      exact fun level hlevel => hnot level (mem_levels_cons hlevel)

theorem nextLevel_declare {declaration : Declaration} (h : declaration.level? = none) (d : Draft) :
    (d.declare declaration).state.nextLevel = d.nextLevel := by
  cases declaration with
  | terminal name precedence =>
      simp only [declare, Attempt.map_state, declareTerminal]
      split
      · rfl
      · split <;> rfl
  | nonterminal name =>
      simp only [declare, Attempt.map_state, declareNonterminal, addNonterminal]
      split
      · rfl
      · split <;> rfl
  | valueType symbol type =>
      simp only [declare, Attempt.map_state, declareType]
      split
      · cases symbol <;> rfl
      · rfl
  | level associativity ts => cases h
  | rule lhs parts precedence => exact (declareRule_keeps d lhs parts precedence).2
  | start n =>
      simp only [declare, Attempt.map_state, declareStart]
      split <;> rfl

theorem nextLevel_declareLevel {d : Draft} (h : d.nextLevel ≤ 65535)
    (associativity : Associativity) (ts : List TerminalId) :
    (d.declareLevel associativity ts).state.nextLevel = min (d.nextLevel + 1) 65535 := by
  unfold declareLevel
  split
  · rename_i hlt
    rw [nextLevel_assignPrecedence]
    exact (Nat.min_eq_left hlt).symm
  · change d.nextLevel = _
    omega

/-- Every precedence call uses up a level, one that fails too, until there are no more. -/
theorem nextLevel_declareAll {d : Draft} (h : d.nextLevel ≤ 65535)
    (declarations : List Declaration) :
    (d.declareAll declarations).nextLevel =
      min (d.nextLevel + (levels declarations).length) 65535 := by
  induction declarations generalizing d with
  | nil => exact (Nat.min_eq_left h).symm
  | cons declaration later ih =>
      change ((d.declare declaration).state.declareAll later).nextLevel = _
      cases declaration with
      | level associativity ts =>
          have hfirst := nextLevel_declareLevel h associativity ts
          change ((d.declareLevel associativity ts).state.declareAll later).nextLevel =
            min (d.nextLevel + ((levels later).length + 1)) 65535
          rw [ih (by omega), hfirst]
          omega
      | terminal | nonterminal | valueType | rule | start =>
          rw [ih (by rwa [nextLevel_declare rfl]), nextLevel_declare rfl]
          rfl

theorem exists_declaration_of_levels {declarations : List Declaration} {below above : List Level}
    {level : Level} (h : levels declarations = below ++ level :: above) :
    ∃ before after, declarations = before ++ .level level.associativity level.terminals :: after ∧
      levels before = below ∧ levels after = above := by
  obtain ⟨before, later, rfl, rfl, hlater⟩ := List.filterMap_eq_append_iff.mp h
  obtain ⟨others, declaration, after, rfl, hothers, hlevel, rfl⟩ :=
    List.filterMap_eq_cons_iff.mp hlater
  have hnone : levels others = [] := List.filterMap_eq_nil_iff.mpr hothers
  cases declaration with
  | level associativity ts =>
      cases hlevel
      refine ⟨before ++ others, after, by rw [List.append_assoc], ?_, rfl⟩
      rw [levels, List.filterMap_append, ← levels, ← levels, hnone, List.append_nil]
  | terminal | nonterminal | valueType | rule | start => cases hlevel

/-- The last precedence call that names a terminal gives it its precedence, and the priority counts
the calls before. -/
theorem precedenceOn_declareAll {d : Draft} (hd : d.nextLevel ≤ 65535)
    {declarations : List Declaration} (h : d.opens t declarations = true)
    {below above : List Level} {level : Level}
    (hlevels : levels declarations = below ++ level :: above) (ht : t ∈ level.terminals)
    (hlast : ∀ other ∈ above, t ∉ other.terminals) :
    (d.declareAll declarations).precedenceOn t =
      some ⟨d.nextLevel + below.length, level.associativity⟩ := by
  obtain ⟨before, after, rfl, rfl, rfl⟩ := exists_declaration_of_levels hlevels
  have hnext := nextLevel_declareAll hd before
  rw [opens_append, opens, Bool.and_eq_true, Bool.and_eq_true] at h
  have hok := h.2.1
  rw [declareAll_append]
  generalize d.declareAll before = d' at hnext hok ⊢
  rcases hmade : d'.declareLevel level.associativity level.terminals with ⟨e | ⟨⟩, d''⟩
  · simp [Declaration.level?, declare, hmade, Attempt.map, Except.isOk, Except.toBool, ht] at hok
  · change ((d'.declareLevel level.associativity level.terminals).state.declareAll
      after).precedenceOn t = _
    rw [hmade]
    -- a call that succeeds finds a level left, so none of those before was refused one
    unfold declareLevel at hmade
    split at hmade
    · rename_i hlt
      obtain ⟨hdeclared, hgiven⟩ := precedenceOn_assignPrecedence hmade ht
      have hsize := size_assignPrecedence ⟨d'.nextLevel, level.associativity⟩
        { d' with nextLevel := d'.nextLevel + 1 } level.terminals
      rw [hmade] at hsize
      rw [precedenceOn_declareAll_of_notMem (hsize ▸ hdeclared) hlast, hgiven,
        show d'.nextLevel = d.nextLevel + (levels before).length by omega]
    · cases hmade

theorem precedenceOn_grammar (d : Draft) (start : NonterminalId) (t : TerminalId) :
    (d.grammar start).precedenceOn t = d.precedenceOn t := by
  simp only [Grammar.precedenceOn, Grammar.terminal?, grammar, assemble, Array.getElem?_mapIdx,
    precedenceOn]
  cases d.terminals.entries[t.index]? <;> rfl

theorem precedenceOf_grammar {d : Draft} {start : NonterminalId} {p : ProductionId} {r : Rule}
    (hr : (d.finishedRules start)[p.index]? = some r) :
    (d.grammar start).precedenceOf p = r.precedence := by
  simp [Grammar.precedenceOf, Grammar.production?, grammar, assemble, hr]

theorem inheritPrecedence_of_none {d : Draft} {r : Rule} (hr : r.precedence = none) :
    (r.inheritPrecedence d.terminals.entries).precedence =
      r.symbols.reverse.findSome? fun
        | .terminal t => d.precedenceOn t
        | .nonterminal _ => none := by
  unfold Rule.inheritPrecedence
  rw [hr, Rule.symbols, ← List.map_reverse, List.findSome?_map]
  rfl

end Draft

namespace Grammar

variable {declarations : List Declaration} {g : Grammar}

theorem precedenceOn_of_define (hg : define declarations = .ok g) {t : TerminalId}
    (h : Draft.initial.opens t declarations = true) {below above : List Level} {level : Level}
    (hlevels : levels declarations = below ++ level :: above) (ht : t ∈ level.terminals)
    (hlast : ∀ other ∈ above, t ∉ other.terminals) :
    g.precedenceOn t = some ⟨below.length + 1, level.associativity⟩ := by
  obtain ⟨start, -, rfl⟩ := Draft.finish_eq_ok hg
  rw [Draft.precedenceOn_grammar,
    Draft.precedenceOn_declareAll (by decide) h hlevels ht hlast, Nat.add_comm]
  rfl

theorem precedenceOf_start (hg : define declarations = .ok g) : g.precedenceOf .start = none := by
  obtain ⟨start, -, rfl⟩ := Draft.finish_eq_ok hg
  rw [Draft.precedenceOf_grammar (Draft.getElem?_zero_finishedRules _ start),
    Draft.inheritPrecedence_of_none rfl]
  rfl

theorem precedenceOf_of_define (hg : define declarations = .ok g) {t : TerminalId}
    (hnone : ∀ r ∈ (Draft.initial.declareAll declarations).rules, .terminal t ∈ r.symbols →
      r.precedence = none)
    {p : ProductionId} {n left right : NonterminalId}
    (hrule : g.HasRule p n [.nonterminal left, .terminal t, .nonterminal right]) :
    g.precedenceOf p = g.precedenceOn t := by
  obtain ⟨start, -, rfl⟩ := Draft.finish_eq_ok hg
  obtain ⟨r, hr, -, hsymbols⟩ := Draft.hasRule_grammar.mp hrule
  rw [Draft.precedenceOf_grammar hr, Draft.precedenceOn_grammar]
  rcases Draft.getElem?_finishedRules hr with ⟨-, rfl⟩ | ⟨r, hdeclared, -, rfl⟩
  · simp [Rule.symbols, inheritPrecedence_rhs, Draft.startRule] at hsymbols
  · have hown : r.symbols = [.nonterminal left, .terminal t, .nonterminal right] := by
      rw [← hsymbols, Rule.symbols, Rule.symbols, inheritPrecedence_rhs]
    have hunset := hnone r (Array.mem_of_getElem? hdeclared) (by simp [hown])
    rw [Draft.inheritPrecedence_of_none hunset, hown]
    cases hon : (Draft.initial.declareAll declarations).precedenceOn t <;> simp [hon]

end Grammar

end Lalr
