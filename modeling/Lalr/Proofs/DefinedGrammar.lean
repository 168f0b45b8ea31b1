import Lalr.Proofs.FirstSets
import Lalr.Proofs.Histories

namespace Lalr

namespace Draft

/-- Rules that carry their own numbers, on the left symbols below `nonterminals`. -/
structure Numbered (nonterminals : Nat) (rules : Array Rule) : Prop where
  id : ∀ {i : Nat} {r : Rule}, rules[i]? = some r → r.id.index = i
  lhs_lt : ∀ {i : Nat} {r : Rule}, rules[i]? = some r → r.lhs.index < nonterminals

theorem Numbered.mem_iff {nonterminals : Nat} {rules : Array Rule}
    (h : Numbered nonterminals rules) {p : ProductionId} {r : Rule} :
    r ∈ rules ∧ r.id = p ↔ rules[p.index]? = some r := by
  constructor
  · rintro ⟨hr, rfl⟩
    obtain ⟨i, hi⟩ := Array.getElem?_of_mem hr
    rwa [h.id hi]
  · intro hr
    exact ⟨Array.mem_of_getElem? hr, Ident.ext_index (h.id hr)⟩

theorem getElem?_rulesByLhs {nonterminals n : Nat} {rules : Array Rule} :
    (rulesByLhs nonterminals rules)[n]? =
      if n < nonterminals then some ((rules.toList.filter (·.lhs.index = n)).map (·.id))
      else none := by
  unfold rulesByLhs
  rw [← Array.foldr_toList]
  induction rules.toList with
  | nil => simp [Array.getElem?_replicate]
  | cons r rules ih =>
      simp only [List.foldr_cons, Array.getElem?_modify, ih]
      by_cases hr : r.lhs.index = n <;> by_cases hn : n < nonterminals <;> simp [hr, hn]

@[simp] theorem size_rulesByLhs {nonterminals : Nat} {rules : Array Rule} :
    (rulesByLhs nonterminals rules).size = nonterminals := by
  unfold rulesByLhs
  rw [← Array.foldr_toList]
  induction rules.toList with
  | nil => simp
  | cons r rules ih => simpa using ih

theorem Numbered.mem_rulesByLhs {nonterminals : Nat} {rules : Array Rule}
    (h : Numbered nonterminals rules) {p : ProductionId} {n : NonterminalId} :
    p ∈ (rulesByLhs nonterminals rules)[n.index]?.getD [] ↔
      ∃ r, rules[p.index]? = some r ∧ r.lhs = n := by
  rw [getElem?_rulesByLhs]
  constructor
  · intro hp
    split at hp
    · simp only [Option.getD_some, List.mem_map, List.mem_filter, Array.mem_toList_iff,
        decide_eq_true_eq] at hp
      obtain ⟨r, ⟨hmem, hr⟩, hid⟩ := hp
      exact ⟨r, h.mem_iff.mp ⟨hmem, hid⟩, Ident.ext_index hr⟩
    · simp at hp
  · rintro ⟨r, hr, rfl⟩
    obtain ⟨hmem, hid⟩ := h.mem_iff.mpr hr
    rw [if_pos (h.lhs_lt hr)]
    simp only [Option.getD_some, List.mem_map, List.mem_filter, Array.mem_toList_iff,
      decide_eq_true_eq]
    exact ⟨r, ⟨hmem, rfl⟩, hid⟩

theorem Numbered.mem_alternatives {nonterminals : Nat} {rules : Array Rule}
    (h : Numbered nonterminals rules) {n : NonterminalId} {rhs : Array Part} :
    rhs ∈ (alternatives rules (rulesByLhs nonterminals rules)).ofIndex n.index ↔
      ∃ p : ProductionId, ∃ r, rules[p.index]? = some r ∧ r.lhs = n ∧ r.rhs = rhs := by
  have hlist : (alternatives rules (rulesByLhs nonterminals rules)).ofIndex n.index =
      ((rulesByLhs nonterminals rules)[n.index]?.getD []).filterMap
        fun p => rules[p.index]?.map (·.rhs) := by
    unfold Alternatives.ofIndex alternatives
    cases hn : (rulesByLhs nonterminals rules)[n.index]? <;> simp [hn]
  rw [hlist, List.mem_filterMap]
  simp only [h.mem_rulesByLhs, Option.map_eq_some_iff]
  constructor
  · rintro ⟨p, ⟨r, hr, hn⟩, r', hr', rfl⟩
    rw [hr] at hr'
    cases hr'
    exact ⟨p, r, hr, hn, rfl⟩
  · rintro ⟨p, r, hr, hn, rfl⟩
    exact ⟨p, ⟨r, hr, hn⟩, r, hr, rfl⟩

section Assemble

variable {terminals : Array TerminalDecl} {nonterminals : Array NonterminalDecl}
  {uses : UseCounts} {rules : Array Rule} {start : NonterminalId}

theorem hasRule_assemble {p : ProductionId} {n : NonterminalId} {rhs : List Symbol} :
    (assemble terminals nonterminals uses rules start).HasRule p n rhs ↔
      ∃ r, rules[p.index]? = some r ∧ r.lhs = n ∧ r.symbols = rhs := by
  unfold Grammar.HasRule Grammar.production? assemble
  simp only [Array.getElem?_map, Option.map_eq_some_iff]
  constructor
  · rintro ⟨production, ⟨r, hr, rfl⟩, hlhs, hrhs⟩
    exact ⟨r, hr, hlhs, hrhs⟩
  · rintro ⟨r, hr, hlhs, hrhs⟩
    exact ⟨_, ⟨r, hr, rfl⟩, hlhs, hrhs⟩

variable (h : Numbered nonterminals.size rules)

include h

theorem listedBy_assemble :
    (assemble terminals nonterminals uses rules start).ListedBy
      (alternatives rules (rulesByLhs nonterminals.size rules)) := by
  intro n symbols
  simp only [hasRule_assemble, h.mem_alternatives]
  constructor
  · rintro ⟨p, r, hr, hn, rfl⟩
    exact ⟨r.rhs, ⟨p, r, hr, hn, rfl⟩, rfl⟩
  · rintro ⟨rhs, ⟨p, r, hr, hn, rfl⟩, rfl⟩
    exact ⟨p, r, hr, hn, rfl⟩

theorem mem_productionsOf_assemble {p : ProductionId} {n : NonterminalId} :
    p ∈ (assemble terminals nonterminals uses rules start).productionsOf n ↔
      ∃ rhs, (assemble terminals nonterminals uses rules start).HasRule p n rhs := by
  have hlist : (assemble terminals nonterminals uses rules start).productionsOf n =
      (rulesByLhs nonterminals.size rules)[n.index]?.getD [] := by
    unfold Grammar.productionsOf Grammar.nonterminal? assemble
    rw [Array.getElem?_mapIdx]
    by_cases hn : n.index < nonterminals.size
    · simp [hn]
    · simp [hn]
  rw [hlist, h.mem_rulesByLhs]
  simp only [hasRule_assemble]
  constructor
  · rintro ⟨r, hr, hn⟩
    exact ⟨r.symbols, r, hr, hn, rfl⟩
  · rintro ⟨-, r, hr, hn, -⟩
    exact ⟨r, hr, hn⟩

theorem isNullable_assemble {n : NonterminalId} :
    (assemble terminals nonterminals uses rules start).isNullable n = true ↔
      (assemble terminals nonterminals uses rules start).Vanishes [.nonterminal n] := by
  rw [← Nullability.known_iff (listedBy_assemble h)]
  have hsize : (Nullability.compute
      (alternatives rules (rulesByLhs nonterminals.size rules))).size = nonterminals.size := by
    simp [Nullability.size_compute, alternatives]
  unfold Grammar.isNullable Grammar.nonterminal? assemble Nullability.known
  rw [Array.getElem?_mapIdx]
  by_cases hn : n.index < nonterminals.size
  · simp [hn]
  · simp [hn, hsize]

theorem mem_firstSet_assemble {n : NonterminalId} {t : TerminalId} :
    t ∈ (assemble terminals nonterminals uses rules start).firstSet n ↔
      (assemble terminals nonterminals uses rules start).Begins [.nonterminal n] t := by
  rw [← FirstSets.mem_iff (listedBy_assemble h)]
  have hsize : (FirstSets.compute (alternatives rules (rulesByLhs nonterminals.size rules))
      (Nullability.compute (alternatives rules (rulesByLhs nonterminals.size rules)))).size =
        nonterminals.size := by
    simp [FirstSets.size_compute, alternatives]
  unfold Grammar.firstSet Grammar.nonterminal? assemble FirstSets.ofNonterminal
  rw [Array.getElem?_mapIdx]
  by_cases hn : n.index < nonterminals.size
  · simp [hn]
  · simp [hn, hsize]

theorem firstFrom_of_mem_assemble {p : Production}
    (hp : p ∈ (assemble terminals nonterminals uses rules start).productions) :
    (assemble terminals nonterminals uses rules start).firstFrom p.rhs 0 =
      (p.first, p.nullable) := by
  have hnullable : (assemble terminals nonterminals uses rules start).isNullable = fun n =>
      Nullability.known (Nullability.compute
        (alternatives rules (rulesByLhs nonterminals.size rules))) (.nonterminal n) := by
    funext n
    rw [Bool.eq_iff_iff, isNullable_assemble h, Nullability.known_iff (listedBy_assemble h)]
  have hfirst : (assemble terminals nonterminals uses rules start).firstSet =
      FirstSets.ofNonterminal (FirstSets.compute
        (alternatives rules (rulesByLhs nonterminals.size rules)) (Nullability.compute
          (alternatives rules (rulesByLhs nonterminals.size rules)))) := by
    funext n
    ext t
    rw [mem_firstSet_assemble h, FirstSets.mem_iff (listedBy_assemble h)]
  rw [Grammar.firstFrom, hnullable, hfirst]
  obtain ⟨r, -, rfl⟩ := Array.mem_map.mp hp
  rfl

end Assemble

end Draft

namespace Grammar

/-- What the automaton of a grammar relies on. -/
structure WellFormed (g : Grammar) : Prop where
  terminals_le : g.terminals.size ≤ 65535
  nonterminals_le : g.nonterminals.size ≤ 65535
  start_ne : g.start ≠ .start
  start_rule : g.HasRule .start .start [.nonterminal g.start]
  eq_start_of_rule : ∀ {p rhs}, g.HasRule p .start rhs → p = .start
  mem_productionsOf : ∀ {p n}, p ∈ g.productionsOf n ↔ ∃ rhs, g.HasRule p n rhs
  isNullable_iff : ∀ {n}, g.isNullable n = true ↔ g.Vanishes [.nonterminal n]
  mem_firstSet : ∀ {n t}, t ∈ g.firstSet n ↔ g.Begins [.nonterminal n] t

theorem inheritPrecedence_id (terminals : Array TerminalDecl) (r : Rule) :
    (r.inheritPrecedence terminals).id = r.id := by
  unfold Rule.inheritPrecedence
  split <;> rfl

theorem inheritPrecedence_lhs (terminals : Array TerminalDecl) (r : Rule) :
    (r.inheritPrecedence terminals).lhs = r.lhs := by
  unfold Rule.inheritPrecedence
  split <;> rfl

theorem inheritPrecedence_rhs (terminals : Array TerminalDecl) (r : Rule) :
    (r.inheritPrecedence terminals).rhs = r.rhs := by
  unfold Rule.inheritPrecedence
  split <;> rfl

theorem inheritPrecedence_origin (terminals : Array TerminalDecl) (r : Rule) :
    (r.inheritPrecedence terminals).origin = r.origin := by
  unfold Rule.inheritPrecedence
  split <;> rfl

end Grammar

namespace Draft

/-- The rules of the finished grammar: the start rule, and those declared, in their order. -/
def finishedRules (d : Draft) (start : NonterminalId) : Array Rule :=
  (#[startRule start] ++ d.rules).map (·.inheritPrecedence d.terminals.entries)

theorem getElem?_zero_finishedRules (d : Draft) (start : NonterminalId) :
    (d.finishedRules start)[ProductionId.start.index]? =
      some ((startRule start).inheritPrecedence d.terminals.entries) := by
  rw [finishedRules, Array.getElem?_map, Array.getElem?_append_left Nat.zero_lt_one]
  rfl

theorem getElem?_finishedRules {d : Draft} {start : NonterminalId} {i : Nat} {r : Rule}
    (h : (d.finishedRules start)[i]? = some r) :
    i = 0 ∧ r = (startRule start).inheritPrecedence d.terminals.entries ∨
      ∃ r', d.rules[i - 1]? = some r' ∧ 0 < i ∧ r = r'.inheritPrecedence d.terminals.entries := by
  unfold finishedRules at h
  rw [Array.getElem?_map, Option.map_eq_some_iff] at h
  obtain ⟨r', hr', rfl⟩ := h
  cases i with
  | zero =>
      rw [Array.getElem?_append_left (by simp)] at hr'
      cases hr'
      exact .inl ⟨rfl, rfl⟩
  | succ i =>
      rw [Array.getElem?_append_right (by simp)] at hr'
      exact .inr ⟨r', hr', Nat.succ_pos i, rfl⟩

def grammar (d : Draft) (start : NonterminalId) : Grammar :=
  assemble d.terminals.entries d.nonterminals.entries (d.uses.noteRule (startRule start))
    (d.finishedRules start) start

theorem hasRule_grammar {d : Draft} {start n : NonterminalId} {p : ProductionId}
    {rhs : List Symbol} : (d.grammar start).HasRule p n rhs ↔
      ∃ r, (d.finishedRules start)[p.index]? = some r ∧ r.lhs = n ∧ r.symbols = rhs :=
  hasRule_assemble

theorem finish_eq_ok {d : Draft} {g : Grammar} (h : d.finish = .ok g) :
    ∃ start, d.start? = some start ∧ g = d.grammar start := by
  unfold finish at h
  split at h
  · cases h
  · rename_i start hstart
    split at h
    · cases h
    · cases h
      exact ⟨start, hstart, rfl⟩

theorem Sound.nonterminal_id_grammar {d : Draft} (h : d.Sound) (start : NonterminalId) :
    InPlace (fun n : Nonterminal => n.id.index) (d.grammar start).nonterminals :=
  h.nonterminal_id.mapIdx fun _ _ => rfl

theorem Sound.numbered {d : Draft} (h : d.Sound) (start : NonterminalId) :
    Numbered d.nonterminals.entries.size (d.finishedRules start) := by
  constructor
  · intro i r hr
    rcases getElem?_finishedRules hr with ⟨rfl, rfl⟩ | ⟨r', hr', hpos, rfl⟩
    · rw [Grammar.inheritPrecedence_id]
      rfl
    · rw [Grammar.inheritPrecedence_id, (h.rule hr').1]
      omega
  · intro i r hr
    rcases getElem?_finishedRules hr with ⟨rfl, rfl⟩ | ⟨r', hr', -, rfl⟩
    · rw [Grammar.inheritPrecedence_lhs]
      exact h.nonterminals_pos
    · rw [Grammar.inheritPrecedence_lhs]
      exact (h.rule hr').2.2

end Draft

namespace Grammar

theorem wellFormed_grammar {d : Draft} (hd : d.Sound) {start : NonterminalId}
    (hstart : d.start? = some start) : (d.grammar start).WellFormed where
  terminals_le := by simpa [Draft.grammar, Draft.assemble, Roster.size] using hd.terminals_le
  nonterminals_le := by simpa [Draft.grammar, Draft.assemble, Roster.size] using hd.nonterminals_le
  start_ne := fun h => hd.start?_ne (h ▸ hstart)
  start_rule := by
    rw [Draft.hasRule_grammar]
    refine ⟨(Draft.startRule start).inheritPrecedence d.terminals.entries,
      Draft.getElem?_zero_finishedRules d start, ?_, ?_⟩
    · rw [inheritPrecedence_lhs]
      rfl
    · rw [Rule.symbols, inheritPrecedence_rhs]
      rfl
  eq_start_of_rule := by
    intro p rhs h
    obtain ⟨r, hr, hlhs, -⟩ := Draft.hasRule_grammar.mp h
    rcases Draft.getElem?_finishedRules hr with ⟨hp, -⟩ | ⟨r', hr', -, rfl⟩
    · exact Ident.ext_index hp
    · rw [inheritPrecedence_lhs] at hlhs
      exact absurd hlhs (hd.rule hr').2.1
  mem_productionsOf := Draft.mem_productionsOf_assemble (hd.numbered start)
  isNullable_iff := Draft.isNullable_assemble (hd.numbered start)
  mem_firstSet := Draft.mem_firstSet_assemble (hd.numbered start)

theorem wellFormed_of_define {declarations : List Declaration} {g : Grammar}
    (h : define declarations = .ok g) : g.WellFormed := by
  obtain ⟨start, hstart, rfl⟩ := Draft.finish_eq_ok h
  exact wellFormed_grammar (Draft.sound_declareAll declarations) hstart

namespace WellFormed

open FirstSets

variable {g : Grammar} (hg : g.WellFormed)

include hg

theorem allNullable_iff {u : List Symbol} : AllNullable g.isNullable u ↔ g.Vanishes u := by
  refine ⟨vanishes_of_allNullable fun _ h => hg.isNullable_iff.mp h,
    allNullable_of_vanishes fun hrule h => ?_⟩
  exact hg.isNullable_iff.mpr (hrule.derives.trans
    (vanishes_of_allNullable (fun _ h => hg.isNullable_iff.mp h) h))

theorem starts_iff {u : List Symbol} {t : TerminalId} :
    Starts g.isNullable g.firstSet u t ↔ g.Begins u t := by
  have hsound : ∀ {u}, Starts g.isNullable g.firstSet u t → g.Begins u t := fun h =>
    begins_of_starts (fun _ h => hg.isNullable_iff.mp h) (fun _ _ h => hg.mem_firstSet.mp h) h
  refine ⟨hsound, starts_of_begins (fun hrule h => ?_) (fun hrule h => ?_)⟩
  · exact hg.isNullable_iff.mpr (hrule.derives.trans (hg.allNullable_iff.mp h))
  · exact hg.mem_firstSet.mpr (.of_derives hrule.derives
      (begins_of_starts (fun _ h => hg.isNullable_iff.mp h)
        (fun _ _ h => hg.mem_firstSet.mp h) h))

theorem mem_firstFrom {rhs : Array Part} {i : Nat} {t : TerminalId} :
    t ∈ (g.firstFrom rhs i).1 ↔ g.Begins ((rhs.toList.map Part.symbol).drop i) t := by
  rw [← hg.starts_iff, firstFrom, mem_ofPositions]
  simp

theorem firstFrom_snd {rhs : Array Part} {i : Nat} :
    (g.firstFrom rhs i).2 = true ↔ g.Vanishes ((rhs.toList.map Part.symbol).drop i) := by
  rw [← hg.allNullable_iff, firstFrom, ofPositions_snd]

theorem mem_firstWithLookahead {rhs : Array Part} {i : Nat} {lookahead : TerminalSet}
    {t : TerminalId} :
    t ∈ (g.firstWithLookahead rhs i lookahead).1 ↔
      g.Begins ((rhs.toList.map Part.symbol).drop i) t ∨
        g.Vanishes ((rhs.toList.map Part.symbol).drop i) ∧ t ∈ lookahead := by
  unfold firstWithLookahead
  rw [← hg.mem_firstFrom, ← hg.firstFrom_snd]
  cases hvanishes : (g.firstFrom rhs i).2 <;> simp [hvanishes]

theorem firstWithLookahead_snd {rhs : Array Part} {i : Nat} {lookahead : TerminalSet} :
    (g.firstWithLookahead rhs i lookahead).2 = true ↔
      g.Vanishes ((rhs.toList.map Part.symbol).drop i) :=
  hg.firstFrom_snd

end WellFormed

/-- What a grammar keeps about its nonterminals and productions, and what it finds out about any
sequence of symbols, is what derivations say: what derives the empty string is nullable, and the
first set holds the terminals that start a derived string. -/
structure ExactSets (g : Grammar) : Prop where
  nonterminal_nullable : ∀ n ∈ g.nonterminals,
    (n.nullable = true ↔ g.Vanishes [.nonterminal n.id])
  mem_nonterminal_first : ∀ n ∈ g.nonterminals, ∀ t, t ∈ n.first ↔ g.Begins [.nonterminal n.id] t
  production_nullable : ∀ p ∈ g.productions, (p.nullable = true ↔ g.Vanishes p.symbols)
  mem_production_first : ∀ p ∈ g.productions, ∀ t, t ∈ p.first ↔ g.Begins p.symbols t
  mem_firstFrom : ∀ (rhs : Array Part) (i : Nat) (t : TerminalId), t ∈ (g.firstFrom rhs i).1 ↔
    g.Begins ((rhs.toList.map Part.symbol).drop i) t
  firstFrom_snd : ∀ (rhs : Array Part) (i : Nat), (g.firstFrom rhs i).2 = true ↔
    g.Vanishes ((rhs.toList.map Part.symbol).drop i)

theorem exactSets_of_define {declarations : List Declaration} {g : Grammar}
    (h : define declarations = .ok g) : g.ExactSets := by
  have hg := wellFormed_of_define h
  obtain ⟨start, -, rfl⟩ := Draft.finish_eq_ok h
  have hd := Draft.sound_declareAll declarations
  generalize Draft.initial.declareAll declarations = d at hd hg ⊢
  have hnonterminal := fun n hn => (hd.nonterminal_id_grammar start).getElem?_of_mem (a := n) hn
  have hproduction : ∀ p ∈ (d.grammar start).productions,
      (d.grammar start).firstFrom p.rhs 0 = (p.first, p.nullable) := fun p hp =>
    Draft.firstFrom_of_mem_assemble (hd.numbered start) hp
  refine ⟨?_, ?_, ?_, ?_, fun _ _ _ => hg.mem_firstFrom, fun _ _ => hg.firstFrom_snd⟩
  · intro n hn
    rw [← hg.isNullable_iff, isNullable, nonterminal?, hnonterminal n hn]
    rfl
  · intro n hn t
    rw [← hg.mem_firstSet, firstSet, nonterminal?, hnonterminal n hn]
    rfl
  · intro p hp
    have hexact := @WellFormed.firstFrom_snd _ hg p.rhs 0
    rwa [hproduction p hp] at hexact
  · intro p hp t
    have hexact := @WellFormed.mem_firstFrom _ hg p.rhs 0 t
    rwa [hproduction p hp] at hexact

end Grammar

/-- The identifier with number `n`, or the last one if there is none. -/
def Ident.nth {kind : Kind} (n : Nat) : Ident kind :=
  ⟨min n 65535, Nat.lt_succ_of_le (Nat.min_le_right n 65535)⟩

def RulePart.terminal (n : Nat) : RulePart :=
  .symbol ⟨.terminal (.nth n), none⟩

def RulePart.nonterminal (n : Nat) : RulePart :=
  .symbol ⟨.nonterminal (.nth n), none⟩

theorem Grammar.exists_define {declarations : List Declaration} {p : Grammar → Bool}
    (h : (define declarations).toOption.any p = true) :
    ∃ g, define declarations = .ok g ∧ p g = true := by
  rcases hg : define declarations with e | g
  · simp [hg, Except.toOption] at h
  · rw [hg] at h
    exact ⟨g, rfl, h⟩

/-- The grammar of `A ::= A B x`, `A ::=`, `B ::= A`, `B ::= y` and `C ::= C x`: some rules go in
circles, and one of them never ends. -/
def Grammar.circles : List Declaration :=
  [.terminal "x" none, .terminal "y" none, .nonterminal "A", .nonterminal "B", .nonterminal "C",
    .rule (.nth 1) [.nonterminal 1, .nonterminal 2, .terminal 2] none,
    .rule (.nth 1) [] none,
    .rule (.nth 2) [.nonterminal 1] none,
    .rule (.nth 2) [.terminal 3] none,
    .rule (.nth 3) [.nonterminal 3, .terminal 2] none]

theorem Grammar.exactSets_of_define_circles :
    ∃ g, define circles = .ok g ∧ g.ExactSets ∧
      g.Begins [.nonterminal (.nth 1), .nonterminal (.nth 2)] (.nth 2) ∧
      g.Vanishes [.nonterminal (.nth 1), .nonterminal (.nth 2)] ∧
      ¬ g.Begins [.nonterminal (.nth 3)] (.nth 2) ∧ ¬ g.Vanishes [.nonterminal (.nth 3)] := by
  let ab : Array Part := #[⟨.nonterminal (.nth 1), none⟩, ⟨.nonterminal (.nth 2), none⟩]
  let c : Array Part := #[⟨.nonterminal (.nth 3), none⟩]
  obtain ⟨g, hg, hrun⟩ := @exists_define circles (fun g =>
      Ident.nth 2 ∈ (g.firstFrom ab 0).1 ∧ (g.firstFrom ab 0).2 = true ∧
        Ident.nth 2 ∉ (g.firstFrom c 0).1 ∧ (g.firstFrom c 0).2 = false) (by decide +kernel)
  simp only [decide_eq_true_eq] at hrun
  obtain ⟨hbegins, hvanishes, hnotBegins, hnotVanishes⟩ := hrun
  have hexact := exactSets_of_define hg
  refine ⟨g, hg, hexact, (hexact.mem_firstFrom ab 0 _).mp hbegins,
    (hexact.firstFrom_snd ab 0).mp hvanishes,
    fun h => hnotBegins ((hexact.mem_firstFrom c 0 _).mpr h), fun h => ?_⟩
  rw [(hexact.firstFrom_snd c 0).mpr h] at hnotVanishes
  cases hnotVanishes

end Lalr
