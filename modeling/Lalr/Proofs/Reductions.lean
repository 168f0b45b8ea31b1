import Lalr.Proofs.Completeness
import Lalr.Proofs.Forests

/-!
Chains of reductions.  As long as the parser only reduces, what it does depends on the next token
and on the string on the stack.  In tables without conflicts such a chain ends if the token may come
next: the item that lets it come is completed step by step, until the token is shifted.
-/

namespace Lalr

theorem Grammar.Awaits.of_forest {g : Grammar} {symbols : List Symbol} {forest : List ParseTree}
    (hf : g.Forest symbols forest) (hleaves : ParseTree.leavesAll forest = []) {γ : List Symbol}
    {t : TerminalId} (h : g.Awaits (γ ++ symbols) t) : g.Awaits γ t := by
  induction hf generalizing γ with
  | nil => rwa [List.append_nil] at h
  | token => cases hleaves
  | @node p n rhs symbols children forest rule _ _ ihBelow ihRest =>
      simp only [ParseTree.leavesAll, ParseTree.leaves, List.append_eq_nil_iff] at hleaves
      rw [List.append_cons] at h
      exact ihBelow hleaves.1 ((ihRest hleaves.2 h).of_reduced rule)

namespace Parser

variable {g : Grammar} {a : Automaton} {tables : PackedTables} {q : StateId} {t : TerminalId}
  {γ δ : List Symbol}

/-- A reduction while `t` is the next token, told by the strings on the stack above a frame with
state `q`. -/
inductive Reduces (g : Grammar) (a : Automaton) (tables : PackedTables) (q : StateId)
    (t : TerminalId) : List Symbol → List Symbol → Prop
  | rule {front rhs : List Symbol} {r : StateId} {p : ProductionId} {n : NonterminalId}
      (path : a.follow? q (front ++ rhs) = some r)
      (action : tables.action r t = .ok (.reduce p)) (hp : p ≠ .start)
      (rule : g.HasRule p n rhs) :
      Reduces g a tables q t (front ++ rhs) (front ++ [.nonterminal n])

/-- While `t` is the next token, reductions come to an end. -/
def Halts (g : Grammar) (a : Automaton) (tables : PackedTables) (q : StateId) (t : TerminalId)
    (γ : List Symbol) : Prop :=
  Acc (fun δ γ => Reduces g a tables q t γ δ) γ

theorem Reduces.exists_action (h : Reduces g a tables q t γ δ) :
    ∃ r p, a.follow? q γ = some r ∧ tables.action r t = .ok (.reduce p) ∧ p ≠ .start := by
  cases h with
  | rule path action hp => exact ⟨_, _, path, action, hp⟩

theorem Reduces.eq {δ' : List Symbol} (h : Reduces g a tables q t γ δ)
    (h' : Reduces g a tables q t γ δ') : δ = δ' := by
  cases h with
  | @rule front rhs r p n path action _ hrule =>
      generalize hγ : front ++ rhs = γ at path h'
      cases h' with
      | rule path' action' _ hrule' =>
          rw [path, Option.some.injEq] at path'
          subst path'
          rw [action, Except.ok.injEq, PackedAction.reduce.injEq] at action'
          subst action'
          obtain ⟨rfl, rfl⟩ := hrule.unique hrule'
          rw [List.append_cancel_right hγ]

theorem Reduces.append_left {s : StateId} {β : List Symbol} (hβ : a.follow? s β = some q)
    (h : Reduces g a tables q t γ δ) : Reduces g a tables s t (β ++ γ) (β ++ δ) := by
  cases h with
  | rule path action hp hrule =>
      rw [← Automaton.follow?_append hβ, ← List.append_assoc] at path
      rw [← List.append_assoc, ← List.append_assoc]
      exact .rule path action hp hrule

theorem Halts.of_append {s : StateId} {β : List Symbol} (hβ : a.follow? s β = some q)
    (h : Halts g a tables s t (β ++ γ)) : Halts g a tables q t γ := by
  generalize hw : β ++ γ = w at h
  induction h generalizing γ with
  | intro w _ ih =>
      subst hw
      exact Acc.intro _ fun δ hδ => ih _ (hδ.append_left hβ) rfl

theorem Halts.of_reduces (h : Reduces g a tables q t γ δ) (hδ : Halts g a tables q t δ) :
    Halts g a tables q t γ :=
  Acc.intro _ fun _ hδ' => h.eq hδ' ▸ hδ

theorem Halts.not_transGen (h : Halts g a tables q t γ) :
    ¬ Relation.TransGen (Reduces g a tables q t) γ γ := by
  induction h with
  | intro γ _ ih =>
      intro hcycle
      obtain ⟨δ, hδ, hback⟩ := Relation.TransGen.head'_iff.mp hcycle
      exact ih δ hδ (Relation.TransGen.tail' hback hδ)

section Settled

variable {config : Config} {dense : Tables} (hm : tables.MadeFrom g a config dense)
  (hshift : dense.counts.shiftReduce = 0)

include hm hshift

theorem halts_of_shift {c : ItemCore} {rest : List Symbol} (hc : g.ValidItem γ c)
    (hafter : g.after c = .terminal t :: rest) : Halts g a tables .start t γ := by
  have ha := hm.exact.toCharted
  obtain ⟨r, hr⟩ := ha.exists_follow? hc
  obtain ⟨q, hq, hholds⟩ := ha.exists_state hr
  obtain ⟨s, hs⟩ := exists_transition ha hq hholds hc hafter
  have haction := action_shift hm hshift hq hs
  refine Acc.intro _ fun δ hδ => ?_
  obtain ⟨r', p, hr', haction', -⟩ := hδ.exists_action
  rw [hr, Option.some.injEq] at hr'
  rw [← hr', haction] at haction'
  cases haction'

variable (hreduce : dense.counts.reduceReduce = 0)

include hreduce

theorem exists_reduce {rhs : List Symbol} {p : ProductionId} {n : NonterminalId}
    (rule : g.HasRule p n rhs) (h : g.ValidLookahead (γ ++ rhs) ⟨p, rhs.length⟩ t) :
    ∃ r, a.follow? .start (γ ++ rhs) = some r ∧ tables.action r t = .ok (.reduce p) := by
  have ha := hm.exact.toCharted
  obtain ⟨r, hr⟩ := ha.exists_follow? h.validItem
  obtain ⟨q, hq, hholds⟩ := ha.exists_state hr
  refine ⟨r, hr, action_reduce hm hshift hreduce hq hholds h ?_⟩
  rw [rule.after, List.drop_length]

theorem Halts.of_rule {rhs : List Symbol} {p : ProductionId} {n : NonterminalId}
    (rule : g.HasRule p n rhs) (h : g.ValidLookahead (γ ++ rhs) ⟨p, rhs.length⟩ t)
    (hn : p ≠ .start → Halts g a tables .start t (γ ++ [.nonterminal n])) :
    Halts g a tables .start t (γ ++ rhs) := by
  obtain ⟨r, hr, haction⟩ := exists_reduce hm hshift hreduce rule h
  by_cases hp : p = .start
  · refine Acc.intro _ fun δ hδ => ?_
    obtain ⟨r', p', hr', haction', hp'⟩ := hδ.exists_action
    rw [hr, Option.some.injEq] at hr'
    rw [← hr', haction, Except.ok.injEq, PackedAction.reduce.injEq] at haction'
    exact absurd (haction'.symm.trans hp) hp'
  · exact .of_reduces (.rule hr haction hp rule) (hn hp)

/-- Symbols that vanish are put on the stack by reductions alone.  The induction is on the forest
that shows that they vanish. -/
theorem Halts.of_forest {symbols : List Symbol} {forest : List ParseTree}
    (hf : g.Forest symbols forest) (hleaves : ParseTree.leavesAll forest = [])
    (ht : g.Awaits (γ ++ symbols) t) (h : Halts g a tables .start t (γ ++ symbols)) :
    Halts g a tables .start t γ := by
  induction hf generalizing γ with
  | nil => rwa [List.append_nil] at h
  | token => cases hleaves
  | @node p n rhs symbols children forest rule below rest ihBelow ihRest =>
      simp only [ParseTree.leavesAll, ParseTree.leaves, List.append_eq_nil_iff] at hleaves
      rw [List.append_cons] at h ht
      have hn : g.Awaits (γ ++ [.nonterminal n]) t := .of_forest rest hleaves.2 ht
      refine ihBelow hleaves.1 (hn.of_reduced rule) ?_
      exact .of_rule hm hshift hreduce rule (hn.validLookahead rule) fun _ => ihRest hleaves.2 ht h

theorem reduces_forest {symbols : List Symbol} {forest : List ParseTree}
    (hf : g.Forest symbols forest) (hleaves : ParseTree.leavesAll forest = [])
    (hstart : .start ∉ ParseTree.reductionsAll forest) (ht : g.Awaits (γ ++ symbols) t) :
    Relation.ReflTransGen (Reduces g a tables .start t) γ (γ ++ symbols) := by
  induction hf generalizing γ with
  | nil => rw [List.append_nil]
  | token => cases hleaves
  | @node p n rhs symbols children forest rule below rest ihBelow ihRest =>
      simp only [ParseTree.leavesAll, ParseTree.leaves, List.append_eq_nil_iff] at hleaves
      simp only [ParseTree.reductionsAll, ParseTree.reductions, List.mem_append,
        List.mem_singleton, not_or] at hstart
      obtain ⟨⟨hbelow, hp⟩, hrest⟩ := hstart
      rw [List.append_cons] at ht ⊢
      have hn : g.Awaits (γ ++ [.nonterminal n]) t := .of_forest rest hleaves.2 ht
      obtain ⟨r, hr, haction⟩ := exists_reduce hm hshift hreduce rule (hn.validLookahead rule)
      have hchildren := ihBelow hleaves.1 hbelow (hn.of_reduced rule)
      exact (hchildren.tail (.rule hr haction (Ne.symm hp) rule)).trans (ihRest hleaves.2 hrest ht)

/-- The item expects the terminal in what stands behind its mark.  The induction goes down to where
the terminal is found, past what vanishes before it. -/
theorem halts_of_opens {u : List Symbol} (h : g.Opens u t) {c : ItemCore} (hc : g.ValidItem γ c)
    (hafter : g.after c = u) : Halts g a tables .start t γ := by
  induction h generalizing γ c with
  | terminal => exact halts_of_shift hm hshift hc hafter
  | expand rule _ rest ih => exact ih (.predict hc hafter rule) (rule.after 0)
  | skip hv h ih =>
      obtain ⟨forest, hforest, hleaves⟩ := hv.exists_forest
      have hadvanced := Grammar.ValidItem.advance hc hafter
      refine .of_forest hm hshift hreduce hforest hleaves ⟨_, .inl ⟨hadvanced, ?_⟩⟩
        (ih hadvanced (Grammar.after_advance hafter))
      rw [Grammar.after_advance hafter]
      exact h.begins

theorem halts_of_front {u rest : List Symbol} {p : ProductionId} {n : NonterminalId}
    (rule : g.HasRule p n (u ++ rest)) (h : g.ValidLookahead γ ⟨p, 0⟩ t) (hv : g.Vanishes rest)
    (hn : p ≠ .start → Halts g a tables .start t (γ ++ [.nonterminal n])) :
    Halts g a tables .start t (γ ++ u) := by
  obtain ⟨forest, hforest, hleaves⟩ := hv.exists_forest
  have hdone := h.advance_front rule (Nat.le_refl _)
  rw [List.take_length] at hdone
  have hhalts := Halts.of_rule hm hshift hreduce rule hdone hn
  rw [← List.append_assoc] at hdone hhalts
  refine .of_forest hm hshift hreduce hforest hleaves ⟨_, .inr ⟨hdone, ?_⟩⟩ hhalts
  rw [rule.after, List.drop_length]
  exact .refl []

theorem halts_of_validLookahead (hg : g.WellFormed) {c : ItemCore} (h : g.ValidLookahead γ c t)
    {u rest : List Symbol} (hafter : g.after c = u ++ rest) (hv : g.Vanishes rest) :
    Halts g a tables .start t (γ ++ u) := by
  induction h generalizing u rest with
  | start =>
      rw [hg.start_rule.after, List.drop_zero] at hafter
      exact halts_of_front hm hshift hreduce (hafter ▸ hg.start_rule) .start hv
        fun hne => absurd rfl hne
  | begins hc hc' hp ht =>
      have hadvanced := Grammar.ValidItem.advance hc hc'
      rw [hp.after, List.drop_zero] at hafter
      exact halts_of_front hm hshift hreduce (hafter ▸ hp) (.begins hc hc' hp ht) hv
        fun _ => halts_of_opens hm hshift hreduce ht.opens hadvanced (Grammar.after_advance hc')
  | passes hc hc' hp hrest ih =>
      rw [hp.after, List.drop_zero] at hafter
      exact halts_of_front hm hshift hreduce (hafter ▸ hp) (.passes hc hc' hp hrest) hv
        fun _ => ih (List.append_cons [] _ _ ▸ hc') hrest
  | @advance γ behind c symbol t _ hc ih =>
      rw [Grammar.after_advance hc] at hafter
      subst hafter
      rw [← List.append_cons]
      exact ih hc hv

theorem halts_of_awaits (hg : g.WellFormed) (h : g.Awaits γ t) : Halts g a tables .start t γ := by
  obtain ⟨c, ⟨hc, hbegins⟩ | ⟨hc, hv⟩⟩ := h
  · exact halts_of_opens hm hshift hreduce hbegins.opens hc rfl
  · simpa using halts_of_validLookahead hm hshift hreduce hg hc (u := []) rfl hv

end Settled

end Parser

end Lalr
