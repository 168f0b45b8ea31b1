import Lalr.Proofs.Forests
import Lalr.Proofs.UnreducedProductions

/-!
What can follow a nonterminal.  Lookaheads belong to items and tell one context from the other; all
taken together, those of a production are the terminals that can stand right behind its left side
in a string that the start symbol derives in front of the end.  Where nothing conflicts, every
lookahead gets its reduction, so the productions that are never reduced by can be told from the
grammar alone.
-/

namespace Lalr

theorem eq_append_cons_of_append {α : Type} {a : α} {u v front rest : List α}
    (h : u ++ v = front ++ a :: rest) :
    (∃ between, u = front ++ a :: between ∧ rest = between ++ v) ∨
      ∃ between, front = u ++ between ∧ v = between ++ a :: rest := by
  rcases List.append_eq_append_iff.mp h with ⟨between, hfront, hv⟩ | ⟨between, hu, hrest⟩
  · exact .inr ⟨between, hfront, hv⟩
  · cases between with
    | nil => exact .inr ⟨[], by simpa using hu.symm, hrest.symm⟩
    | cons b between =>
        obtain ⟨rfl, rfl⟩ := List.cons_eq_cons.mp hrest
        exact .inl ⟨between, hu, rfl⟩

namespace Grammar

variable {g : Grammar}

/-- The start symbol, followed by the end of the input, derives a string in which `rest` stands
behind an occurrence of `n`. -/
def Frames (g : Grammar) (n : NonterminalId) (rest : List Symbol) : Prop :=
  ∃ before, g.Derives [.nonterminal .start, .terminal .eof] (before ++ .nonterminal n :: rest)

theorem frames_start (g : Grammar) : g.Frames .start [.terminal .eof] :=
  ⟨[], .refl _⟩

theorem Frames.derives {n : NonterminalId} {u v : List Symbol} (h : g.Frames n u)
    (huv : g.Derives u v) : g.Frames n v := by
  obtain ⟨before, hbefore⟩ := h
  exact ⟨before, hbefore.trans ((huv.append_left [.nonterminal n]).append_left before)⟩

theorem Frames.below {n m : NonterminalId} {p : ProductionId} {front behind rest : List Symbol}
    (h : g.Frames n rest) (hp : g.HasRule p n (front ++ .nonterminal m :: behind)) :
    g.Frames m (behind ++ rest) := by
  obtain ⟨before, hbefore⟩ := h
  refine ⟨before ++ front, hbefore.trans ?_⟩
  have := (hp.derives_cons rest).append_left before
  simpa only [List.append_assoc, List.cons_append] using this

theorem exists_hasRule_of_after {c : ItemCore} {m : NonterminalId} {behind : List Symbol}
    {n : NonterminalId} {rhs : List Symbol} (hc : g.HasRule c.production n rhs)
    (h : g.after c = .nonterminal m :: behind) :
    g.HasRule c.production n (rhs.take c.dot ++ .nonterminal m :: behind) := by
  rw [hc.after] at h
  rwa [← h, List.take_append_drop]

theorem ValidItem.frames (hg : g.WellFormed) {γ : List Symbol} {c : ItemCore}
    (h : g.ValidItem γ c) : ∃ n rhs rest, g.HasRule c.production n rhs ∧ g.Frames n rest := by
  induction h with
  | start => exact ⟨_, _, _, hg.start_rule, frames_start g⟩
  | predict _ hc hp ih =>
      obtain ⟨n, rhs, rest, hrule, hframes⟩ := ih
      exact ⟨_, _, _, hp, hframes.below (exists_hasRule_of_after hrule hc)⟩
  | advance _ _ ih => exact ih

theorem ValidLookahead.frames (hg : g.WellFormed) {γ : List Symbol} {c : ItemCore} {t : TerminalId}
    (h : g.ValidLookahead γ c t) :
    ∃ n rhs rest, g.HasRule c.production n rhs ∧ g.Frames n (.terminal t :: rest) := by
  induction h with
  | start => exact ⟨_, _, _, hg.start_rule, frames_start g⟩
  | begins h hc hp ht =>
      obtain ⟨n, rhs, rest, hrule, hframes⟩ := h.frames hg
      obtain ⟨behind, hbehind⟩ := ht
      exact ⟨_, _, behind ++ rest, hp,
        (hframes.below (exists_hasRule_of_after hrule hc)).derives (hbehind.append_right rest)⟩
  | passes _ hc hp hv ih =>
      obtain ⟨n, rhs, rest, hrule, hframes⟩ := ih
      exact ⟨_, _, rest, hp,
        (hframes.below (exists_hasRule_of_after hrule hc)).derives (hv.append_right _)⟩
  | advance _ _ ih => exact ih

/-- The automaton foresees an occurrence of `n` in front of `rest`: after one and the same string
all productions of `n` are predicted, and for every terminal that `rest` can begin with there is a
string after which they are predicted under that terminal. -/
structure Foresees (g : Grammar) (n : NonterminalId) (rest : List Symbol) : Prop where
  predicted : ∃ γ, ∀ p rhs, g.HasRule p n rhs → g.ValidItem γ ⟨p, 0⟩
  lookahead : ∀ t, g.Begins rest t →
    ∃ γ, ∀ p rhs, g.HasRule p n rhs → g.ValidLookahead γ ⟨p, 0⟩ t

theorem foresees_start (hg : g.WellFormed) : g.Foresees .start [.terminal .eof] where
  predicted := ⟨[], fun p rhs hp => hg.eq_start_of_rule hp ▸ .start⟩
  lookahead t ht := by
    refine ⟨[], fun p rhs hp => ?_⟩
    obtain rfl := hg.eq_start_of_rule hp
    cases ht.opens with
    | terminal => exact .start
    | skip _ h => cases h

theorem Foresees.of_derives {n : NonterminalId} {u v : List Symbol} (h : g.Foresees n u)
    (huv : g.Derives u v) : g.Foresees n v :=
  ⟨h.predicted, fun t ht => h.lookahead t (.of_derives huv ht)⟩

theorem Foresees.below {n m : NonterminalId} {p : ProductionId} {front behind rest : List Symbol}
    (h : g.Foresees n rest) (hp : g.HasRule p n (front ++ .nonterminal m :: behind)) :
    g.Foresees m (behind ++ rest) := by
  have hafter : g.after ⟨p, front.length⟩ = .nonterminal m :: behind := by
    rw [hp.after, List.drop_left]
  have hle : front.length ≤ (front ++ .nonterminal m :: behind).length := by simp
  obtain ⟨γ, hγ⟩ := h.predicted
  have hitem := (hγ p _ hp).advance_front hp hle
  refine ⟨⟨_, fun q rhs hq => .predict hitem hafter hq⟩, fun t ht => ?_⟩
  -- The terminal comes from what stands behind `m` in the right side, or from behind all of it.
  rcases ht.opens.of_append with hbehind | ⟨hvanishes, hrest⟩
  · exact ⟨_, fun q rhs hq => .begins hitem hafter hq hbehind.begins⟩
  · obtain ⟨δ, hδ⟩ := h.lookahead t hrest.begins
    exact ⟨_, fun q rhs hq => .passes ((hδ p _ hp).advance_front hp hle) hafter hq hvanishes⟩

/-- Each occurrence of a nonterminal is foreseen: it was there before the last rewriting step, or it
comes from the rule that was applied. -/
theorem foresees_of_derives (hg : g.WellFormed) {w : List Symbol}
    (h : g.Derives [.nonterminal .start, .terminal .eof] w) {before rest : List Symbol}
    {n : NonterminalId} (hw : w = before ++ .nonterminal n :: rest) : g.Foresees n rest := by
  induction h generalizing before n rest with
  | refl =>
      cases before with
      | nil =>
          cases hw
          exact foresees_start hg
      | cons x before =>
          obtain ⟨-, hw⟩ := List.cons_eq_cons.mp hw
          rcases before with _ | ⟨y, before⟩
          · cases hw
          · simp at hw
  | tail _ hstep ih =>
      cases hstep with
      | @rule p m rhs hp u v =>
          rcases eq_append_cons_of_append hw with ⟨x, rfl, rfl⟩ | ⟨x, rfl, hv⟩
          · have hold := ih (List.append_assoc before (.nonterminal n :: x) _)
            exact hold.of_derives ((hp.derives_cons v).append_left x)
          · rcases eq_append_cons_of_append hv with ⟨y, rfl, rfl⟩ | ⟨y, rfl, rfl⟩
            · exact (ih rfl).below hp
            · exact ih (List.append_assoc u (.nonterminal m :: y) _).symm

/-- A production can be completed under a terminal exactly if the terminal can stand behind its left
side. -/
theorem exists_validLookahead_iff (hg : g.WellFormed) {p : ProductionId} {n : NonterminalId}
    {rhs : List Symbol} (hp : g.HasRule p n rhs) (t : TerminalId) :
    (∃ γ, g.ValidLookahead γ ⟨p, rhs.length⟩ t) ↔ ∃ rest, g.Frames n (.terminal t :: rest) := by
  constructor
  · rintro ⟨γ, hγ⟩
    obtain ⟨m, rhs', rest, hp', hframes⟩ := hγ.frames hg
    obtain ⟨rfl, -⟩ := hp.unique hp'
    exact ⟨rest, hframes⟩
  · rintro ⟨rest, before, hbefore⟩
    obtain ⟨γ, hγ⟩ := (foresees_of_derives hg hbefore rfl).lookahead t (.terminal t rest)
    have hdone := (hγ p rhs hp).advance_front hp (Nat.le_refl rhs.length)
    exact ⟨_, hdone⟩

end Grammar

theorem ActionRow.reducesBy_iff {row : ActionRow} (hdefault : row.default = none)
    (hsize : row.cells.size ≤ 65536) {p : ProductionId} :
    row.ReducesBy p ↔ ∃ t, row.get? t = some (.reduce p) := by
  rw [ReducesBy, hdefault]
  constructor
  · rintro (hcell | hnone)
    · obtain ⟨i, hi⟩ := Array.getElem?_of_mem hcell
      have hlt := (Array.getElem?_eq_some_iff.mp hi).1
      exact ⟨⟨i, Nat.lt_of_lt_of_le hlt hsize⟩, hi⟩
    · cases hnone
  · rintro ⟨t, ht⟩
    exact .inl (Array.mem_of_getElem? ht)

namespace Tables.Tabulate

variable {g : Grammar} {a : Automaton} {tables : Tables}

theorem reducesBy_iff (ht : tables.Tabulate g a) (hg : g.WellFormed) (ha : a.Exact g)
    (hshift : tables.counts.shiftReduce = 0) (hreduce : tables.counts.reduceReduce = 0)
    {p : ProductionId} {n : NonterminalId} {rhs : List Symbol} (hp : g.HasRule p n rhs) :
    tables.actions.ReducesBy p ↔ ∃ t γ, g.ValidLookahead γ ⟨p, rhs.length⟩ t := by
  have hend : g.after ⟨p, rhs.length⟩ = [] := by
    rw [hp.after, List.drop_length]
  constructor
  · rintro ⟨row, hmem, hrow⟩
    obtain ⟨i, hi⟩ := Array.getElem?_of_mem hmem
    obtain ⟨q, gotos, hq, htab⟩ := ht.exists_state hi
    obtain ⟨t, hcell⟩ := (ActionRow.reducesBy_iff htab.default (htab.size_le hg)).mp hrow
    obtain ⟨item, hitem, rfl, hafter, hla⟩ := htab.reduce hcell
    obtain ⟨slot, hslot⟩ := Array.getElem?_of_mem hitem
    obtain ⟨γ, hγ, hvalid⟩ := (ha.lookahead hq hslot t).mp hla
    have hcore : item.core = ⟨item.core.production, rhs.length⟩ := by
      obtain ⟨m, rhs', -, hp', hle, -⟩ := hvalid.validItem.split hg
      obtain ⟨-, rfl⟩ := hp.unique hp'
      rw [hp.after, List.drop_eq_nil_iff] at hafter
      exact ItemCore.ext rfl (Nat.le_antisymm hle hafter)
    exact ⟨t, γ, hcore ▸ hvalid⟩
  · rintro ⟨t, γ, hvalid⟩
    obtain ⟨r, hr⟩ := ha.toCharted.exists_follow? hvalid.validItem
    obtain ⟨q, hq, hholds⟩ := ha.exists_state hr
    obtain ⟨item, hitem, hcore, hla⟩ := ha.exists_item hq hholds hvalid
    obtain ⟨row, gotos, hrow, -, htab⟩ := ht.rows hq
    have hcell := htab.reduce_of_settled hshift hreduce hitem (hcore ▸ hend) hla
    rw [hcore] at hcell
    exact ⟨row, Array.mem_of_getElem? hrow,
      (ActionRow.reducesBy_iff htab.default (htab.size_le hg)).mpr ⟨t, hcell⟩⟩

theorem default_eq_none (ht : tables.Tabulate g a) : ∀ row ∈ tables.actions.rows,
    row.default = none := by
  intro row hmem
  obtain ⟨i, hi⟩ := Array.getElem?_of_mem hmem
  obtain ⟨q, gotos, -, htab⟩ := ht.exists_state hi
  exact htab.default

end Tables.Tabulate

namespace Config

/-- Where nothing conflicts, a production is listed as never reduced exactly if no string that the
start symbol derives in front of the end has a terminal right behind its left side. -/
theorem notMem_unreduced_iff {declarations : List Declaration} {g : Grammar}
    (hg : Grammar.define declarations = .ok g) {config : Config} {sink reports : Diagnostics}
    {generated : Generated} (h : config.generate g sink = ⟨.ok generated, reports⟩)
    (hshift : generated.summary.counts.shiftReduce = 0)
    (hreduce : generated.summary.counts.reduceReduce = 0) {p : ProductionId}
    {production : Production} (hp : g.production? p = some production) :
    p ∉ generated.summary.unreduced ↔ ∃ u v t,
      g.Derives [.nonterminal .start, .terminal .eof]
        (u ++ .nonterminal production.lhs :: .terminal t :: v) := by
  have hwell := Grammar.wellFormed_of_define hg
  obtain ⟨tables, reported, hbuild, htables, hyields⟩ := generate_eq_ok h
  have htab := Tables.tabulate_of_fill htables
  have hrule : g.HasRule p production.lhs production.symbols := ⟨production, hp, rfl, rfl⟩
  have hlt : p.index < g.productions.size := (Array.getElem?_eq_some_iff.mp hp).1
  have hsame : generated.actions.ReducesBy p ↔ tables.actions.ReducesBy p := by
    rw [hyields.actions]
    split
    · exact ActionTable.reducesBy_compact htab.default_eq_none
    · rfl
  rw [hyields.counts] at hshift hreduce
  rw [hyields.unreduced,
    ActionTable.mem_unreduced (Grammar.orderly_of_define hg).production_id, not_and_not_right,
    hsame, htab.reducesBy_iff hwell (Automaton.exact_of_build hwell hbuild) hshift hreduce hrule]
  simp only [Grammar.exists_validLookahead_iff hwell hrule, Grammar.Frames]
  constructor
  · intro hreduces
    obtain ⟨t, v, u, hderives⟩ := hreduces hlt
    exact ⟨u, v, t, hderives⟩
  · rintro ⟨u, v, t, hderives⟩ -
    exact ⟨t, v, u, hderives⟩

/-- The grammar of `S ::= A x`, `A ::=` and `B ::= y`, which nothing leads to. -/
def stray : List Declaration :=
  [.terminal "x" none, .terminal "y" none, .nonterminal "S", .nonterminal "A", .nonterminal "B",
    .rule (.nth 1) [.nonterminal 2, .terminal 2] none,
    .rule (.nth 2) [] none,
    .rule (.nth 3) [.terminal 3] none]

theorem notMem_unreduced_iff_stray :
    ∃ g generated reports, Grammar.define stray = .ok g ∧
      generate { compact := true } g ∅ = ⟨.ok generated, reports⟩ ∧
      generated.summary.counts.shiftReduce = 0 ∧ generated.summary.counts.reduceReduce = 0 ∧
      (∃ u v t, g.Derives [.nonterminal .start, .terminal .eof]
        (u ++ .nonterminal (.nth 2) :: .terminal t :: v)) ∧
      ¬ ∃ u v t, g.Derives [.nonterminal .start, .terminal .eof]
        (u ++ .nonterminal (.nth 3) :: .terminal t :: v) := by
  have hrun : (tablesOf { compact := true } stray).any (fun (g, generated, _) =>
      (generated.summary.counts.shiftReduce = 0 ∧ generated.summary.counts.reduceReduce = 0) ∧
        (g.production? (.nth 2)).map (·.lhs) = some (.nth 2) ∧
        (g.production? (.nth 3)).map (·.lhs) = some (.nth 3) ∧
        .nth 2 ∉ generated.summary.unreduced ∧ .nth 3 ∈ generated.summary.unreduced) = true := by
    decide +kernel
  obtain ⟨⟨g, generated, tables⟩, htables, hchecks⟩ := (Option.any_eq_true _ _).mp hrun
  rw [decide_eq_true_eq] at hchecks
  obtain ⟨⟨hshift, hreduce⟩, hsecond, hthird, hreduced, hunreduced⟩ := hchecks
  obtain ⟨hg, ⟨reports, hgenerate⟩, -⟩ := tablesOf_eq_some htables
  obtain ⟨second, hp, hlhs⟩ := Option.map_eq_some_iff.mp hsecond
  obtain ⟨third, hp', hlhs'⟩ := Option.map_eq_some_iff.mp hthird
  refine ⟨g, generated, reports, hg, hgenerate, hshift, hreduce, ?_, fun hstands => ?_⟩
  · exact hlhs ▸ (notMem_unreduced_iff hg hgenerate hshift hreduce hp).mp hreduced
  · exact (notMem_unreduced_iff hg hgenerate hshift hreduce hp').mpr (hlhs'.symm ▸ hstands)
      hunreduced

end Config

end Lalr
