import Lalr.Proofs.Soundness

namespace Lalr.Grammar

open ParseTree

variable {g : Grammar}

theorem Forest.exists_append {u v : List Symbol} {forest : List ParseTree}
    (h : g.Forest (u ++ v) forest) :
    ∃ trees trees', forest = trees ++ trees' ∧ g.Forest u trees ∧ g.Forest v trees' := by
  induction u generalizing forest with
  | nil => exact ⟨[], forest, rfl, .nil, h⟩
  | cons symbol u ih =>
      rw [List.cons_append] at h
      cases h with
      | token rest =>
          obtain ⟨trees, trees', rfl, hu, hv⟩ := ih rest
          exact ⟨_, trees', rfl, .token hu, hv⟩
      | node rule below rest =>
          obtain ⟨trees, trees', rfl, hu, hv⟩ := ih rest
          exact ⟨_, trees', rfl, .node rule below hu, hv⟩

theorem exists_forest_terminals (g : Grammar) (w : List TerminalId) :
    ∃ trees, g.Forest (w.map .terminal) trees ∧ leavesAll trees = w := by
  induction w with
  | nil => exact ⟨[], .nil, rfl⟩
  | cons t w ih =>
      obtain ⟨trees, hforest, hleaves⟩ := ih
      exact ⟨.token t :: trees, .token hforest, by rw [leavesAll, leaves, hleaves, List.cons_append,
        List.nil_append]⟩

/-- A derivation of terminals is read off a forest.  Its first step becomes the top of a tree. -/
theorem Derives.exists_forest {u : List Symbol} {w : List TerminalId}
    (h : g.Derives u (w.map .terminal)) :
    ∃ trees, g.Forest u trees ∧ leavesAll trees = w := by
  induction h using Relation.ReflTransGen.head_induction_on with
  | refl => exact exists_forest_terminals g w
  | head step _ ih =>
      obtain ⟨forest, hforest, hleaves⟩ := ih
      cases step with
      | @rule p n rhs hrule u v =>
          obtain ⟨before, forest', rfl, hu, hforest'⟩ := hforest.exists_append
          obtain ⟨children, behind, rfl, hrhs, hv⟩ := hforest'.exists_append
          refine ⟨before ++ .node p children :: behind, hu.append (.node hrule hrhs hv), ?_⟩
          rw [← hleaves]
          simp only [leavesAll_append, leavesAll, leaves]

theorem Vanishes.exists_forest {u : List Symbol} (h : g.Vanishes u) :
    ∃ trees, g.Forest u trees ∧ leavesAll trees = [] :=
  Derives.exists_forest h

/-- `t` is found at the beginning of a string: as its first symbol, in a right side for its first
symbol, or behind a first symbol that vanishes. -/
inductive Opens (g : Grammar) : List Symbol → TerminalId → Prop
  | terminal (t : TerminalId) (rest : List Symbol) : Opens g (.terminal t :: rest) t
  | expand {p : ProductionId} {n : NonterminalId} {rhs : List Symbol} {t : TerminalId}
      (rule : g.HasRule p n rhs) (h : Opens g rhs t) (rest : List Symbol) :
      Opens g (.nonterminal n :: rest) t
  | skip {symbol : Symbol} {rest : List Symbol} {t : TerminalId} (hv : g.Vanishes [symbol])
      (h : Opens g rest t) : Opens g (symbol :: rest) t

theorem Opens.of_append {u v : List Symbol} {t : TerminalId} (h : g.Opens (u ++ v) t) :
    g.Opens u t ∨ g.Vanishes u ∧ g.Opens v t := by
  induction u with
  | nil => exact .inr ⟨.refl [], h⟩
  | cons symbol u ih =>
      rw [List.cons_append] at h
      cases h with
      | terminal t => exact .inl (.terminal t u)
      | expand rule h => exact .inl (.expand rule h u)
      | skip hv h =>
          rcases ih h with hu | ⟨hu, h⟩
          · exact .inl (.skip hv hu)
          · exact .inr ⟨hv.append hu, h⟩

theorem Opens.of_rewrites {u v : List Symbol} {t : TerminalId} (hstep : g.Rewrites u v)
    (h : g.Opens v t) : g.Opens u t := by
  cases hstep with
  | @rule p n rhs hrule u v =>
      induction u with
      | nil =>
          rw [List.nil_append] at h
          rcases h.of_append with hrhs | ⟨hrhs, hv⟩
          · exact .expand hrule hrhs v
          · exact .skip (hrule.derives.trans hrhs) hv
      | cons symbol u ih =>
          rw [List.cons_append] at h ⊢
          cases h with
          | terminal t => exact .terminal t _
          | expand rule h => exact .expand rule h _
          | skip hv h => exact .skip hv (ih h)

theorem Begins.opens {u : List Symbol} {t : TerminalId} (h : g.Begins u t) : g.Opens u t := by
  obtain ⟨v, h⟩ := h
  induction h using Relation.ReflTransGen.head_induction_on with
  | refl => exact .terminal t v
  | head hstep _ ih => exact .of_rewrites hstep ih

theorem Opens.begins {u : List Symbol} {t : TerminalId} (h : g.Opens u t) : g.Begins u t := by
  induction h with
  | terminal t rest => exact .terminal t rest
  | expand rule _ rest ih => exact .of_derives (rule.derives_cons rest) (ih.append_right rest)
  | skip hv _ ih => exact .append_left hv ih

/-- A string that vanishes without the start production that every grammar adds. -/
def Erases (g : Grammar) (u : List Symbol) : Prop :=
  ∃ trees, g.Forest u trees ∧ leavesAll trees = [] ∧ .start ∉ reductionsAll trees

theorem Erases.vanishes {u : List Symbol} (h : g.Erases u) : g.Vanishes u := by
  obtain ⟨trees, hforest, hleaves, -⟩ := h
  have hderives := hforest.derives
  rwa [hleaves] at hderives

theorem erases_nil (g : Grammar) : g.Erases [] :=
  ⟨[], .nil, rfl, List.not_mem_nil⟩

theorem Erases.reduce {u rhs : List Symbol} {p : ProductionId} {n : NonterminalId}
    (h : g.Erases (u ++ rhs)) (rule : g.HasRule p n rhs) (hp : p ≠ .start) :
    g.Erases (u ++ [.nonterminal n]) := by
  obtain ⟨forest, hforest, hleaves, hstart⟩ := h
  obtain ⟨before, children, rfl, hu, hrhs⟩ := hforest.exists_append
  refine ⟨before ++ [.node p children], hu.append (.node rule hrhs .nil), ?_, ?_⟩
  · rw [← hleaves]
    simp [leavesAll_append, leavesAll, leaves]
  · rw [reductionsAll_append] at hstart ⊢
    simp only [reductionsAll, reductions, List.append_nil, List.mem_append, List.mem_singleton]
    rintro (hmem | hmem | rfl)
    · exact hstart (List.mem_append_left _ hmem)
    · exact hstart (List.mem_append_right _ hmem)
    · exact hp rfl

end Lalr.Grammar
