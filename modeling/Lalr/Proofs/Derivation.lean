import Mathlib.Logic.Relation
import Lalr.Parser

namespace Lalr

/-- The right side of a rule without the labels. -/
def Rule.symbols (r : Rule) : List Symbol :=
  r.rhs.toList.map Part.symbol

namespace Grammar

/-- `p` is a production of `g` from `n` to `rhs`. -/
def HasRule (g : Grammar) (p : ProductionId) (n : NonterminalId) (rhs : List Symbol) : Prop :=
  ∃ production, g.production? p = some production ∧ production.lhs = n ∧ production.symbols = rhs

inductive Rewrites (g : Grammar) : List Symbol → List Symbol → Prop
  | rule {p : ProductionId} {n : NonterminalId} {rhs : List Symbol} (h : g.HasRule p n rhs)
      (u v : List Symbol) : Rewrites g (u ++ .nonterminal n :: v) (u ++ (rhs ++ v))

def Derives (g : Grammar) : List Symbol → List Symbol → Prop :=
  Relation.ReflTransGen g.Rewrites

/-- `u` derives a string that starts with `t`. -/
def Begins (g : Grammar) (u : List Symbol) (t : TerminalId) : Prop :=
  ∃ v, g.Derives u (.terminal t :: v)

/-- `u` derives the empty string. -/
def Vanishes (g : Grammar) (u : List Symbol) : Prop :=
  g.Derives u []

variable {g : Grammar}

theorem HasRule.unique {p : ProductionId} {m n : NonterminalId} {u v : List Symbol}
    (h : g.HasRule p m u) (h' : g.HasRule p n v) : m = n ∧ u = v := by
  obtain ⟨production, hp, rfl, rfl⟩ := h
  obtain ⟨production', hp', rfl, rfl⟩ := h'
  rw [hp] at hp'
  cases hp'
  exact ⟨rfl, rfl⟩

theorem Rewrites.append_left {u v : List Symbol} (h : g.Rewrites u v) (w : List Symbol) :
    g.Rewrites (w ++ u) (w ++ v) := by
  cases h with
  | rule hrule u v =>
      have := Rewrites.rule hrule (w ++ u) v
      simpa only [List.append_assoc] using this

theorem Rewrites.append_right {u v : List Symbol} (h : g.Rewrites u v) (w : List Symbol) :
    g.Rewrites (u ++ w) (v ++ w) := by
  cases h with
  | rule hrule u v =>
      have := Rewrites.rule hrule u (v ++ w)
      simpa only [List.append_assoc, List.cons_append] using this

theorem Derives.refl (u : List Symbol) : g.Derives u u :=
  Relation.ReflTransGen.refl

theorem Derives.trans {u v w : List Symbol} (h : g.Derives u v) (h' : g.Derives v w) :
    g.Derives u w :=
  Relation.ReflTransGen.trans h h'

theorem Derives.append_left {u v : List Symbol} (h : g.Derives u v) (w : List Symbol) :
    g.Derives (w ++ u) (w ++ v) := by
  induction h with
  | refl => exact .refl _
  | tail _ step ih => exact Relation.ReflTransGen.tail ih (step.append_left w)

theorem Derives.append_right {u v : List Symbol} (h : g.Derives u v) (w : List Symbol) :
    g.Derives (u ++ w) (v ++ w) := by
  induction h with
  | refl => exact .refl _
  | tail _ step ih => exact Relation.ReflTransGen.tail ih (step.append_right w)

theorem Derives.append {u u' v v' : List Symbol} (h : g.Derives u u') (h' : g.Derives v v') :
    g.Derives (u ++ v) (u' ++ v') :=
  (h.append_right v).trans (h'.append_left u')

theorem HasRule.derives {p : ProductionId} {n : NonterminalId} {rhs : List Symbol}
    (h : g.HasRule p n rhs) : g.Derives [.nonterminal n] rhs := by
  have := Rewrites.rule h [] []
  simp only [List.nil_append, List.append_nil] at this
  exact Relation.ReflTransGen.single this

theorem HasRule.derives_cons {p : ProductionId} {n : NonterminalId} {rhs : List Symbol}
    (h : g.HasRule p n rhs) (u : List Symbol) : g.Derives (.nonterminal n :: u) (rhs ++ u) :=
  h.derives.append_right u

theorem Vanishes.append {u v : List Symbol} (h : g.Vanishes u) (h' : g.Vanishes v) :
    g.Vanishes (u ++ v) :=
  Derives.append h h'

theorem Begins.of_derives {u v : List Symbol} {t : TerminalId} (h : g.Derives u v)
    (hv : g.Begins v t) : g.Begins u t :=
  hv.imp fun _ hw => h.trans hw

theorem Begins.append_right {u : List Symbol} {t : TerminalId} (h : g.Begins u t)
    (v : List Symbol) : g.Begins (u ++ v) t := by
  obtain ⟨w, hw⟩ := h
  exact ⟨w ++ v, hw.append_right v⟩

theorem Begins.append_left {u v : List Symbol} {t : TerminalId} (hu : g.Vanishes u)
    (h : g.Begins v t) : g.Begins (u ++ v) t := by
  obtain ⟨w, hw⟩ := h
  exact ⟨w, Derives.append hu hw⟩

theorem Begins.terminal (t : TerminalId) (u : List Symbol) : g.Begins (.terminal t :: u) t :=
  ⟨u, .refl _⟩

/-- A derivation of `v` from `u` that rewrites the last nonterminal in each step, with the
productions that it uses. -/
inductive Rightmost (g : Grammar) : List ProductionId → List Symbol → List Symbol → Prop
  | refl (u : List Symbol) : Rightmost g [] u u
  | step {p : ProductionId} {n : NonterminalId} {rhs : List Symbol} {ps : List ProductionId}
      {u v : List Symbol} {w : List TerminalId} (rule : g.HasRule p n rhs)
      (rest : Rightmost g ps (u ++ (rhs ++ w.map .terminal)) v) :
      Rightmost g (p :: ps) (u ++ .nonterminal n :: w.map .terminal) v

theorem Rightmost.derives {ps : List ProductionId} {u v : List Symbol}
    (h : g.Rightmost ps u v) : g.Derives u v := by
  induction h with
  | refl u => exact .refl u
  | step rule _ ih =>
      exact Relation.ReflTransGen.head (.rule rule _ _) ih

theorem Rightmost.trans {ps qs : List ProductionId} {u v w : List Symbol}
    (h : g.Rightmost ps u v) (h' : g.Rightmost qs v w) : g.Rightmost (ps ++ qs) u w := by
  induction h with
  | refl u => exact h'
  | step rule _ ih => exact .step rule (ih h')

theorem Rightmost.append_left {ps : List ProductionId} {u v : List Symbol}
    (h : g.Rightmost ps u v) (w : List Symbol) : g.Rightmost ps (w ++ u) (w ++ v) := by
  induction h with
  | refl u => exact .refl _
  | @step p n rhs ps u v x rule _ ih =>
      have hrest : g.Rightmost ps ((w ++ u) ++ (rhs ++ x.map .terminal)) (w ++ v) := by
        simpa only [List.append_assoc] using ih
      simpa only [List.append_assoc] using Rightmost.step rule hrest

theorem Rightmost.append_right {ps : List ProductionId} {u v : List Symbol}
    (h : g.Rightmost ps u v) (x : List TerminalId) :
    g.Rightmost ps (u ++ x.map .terminal) (v ++ x.map .terminal) := by
  induction h with
  | refl u => exact .refl _
  | @step p n rhs ps u v w rule _ ih =>
      have hrest : g.Rightmost ps (u ++ (rhs ++ (w ++ x).map .terminal))
          (v ++ x.map .terminal) := by
        simpa only [List.map_append, List.append_assoc] using ih
      simpa only [List.map_append, List.append_assoc, List.cons_append] using
        Rightmost.step rule hrest

/-- The trees `trees` stand for derivations from the symbols of a string, one tree a symbol. -/
inductive Forest (g : Grammar) : List Symbol → List ParseTree → Prop
  | nil : Forest g [] []
  | token {t : TerminalId} {symbols : List Symbol} {trees : List ParseTree}
      (rest : Forest g symbols trees) : Forest g (.terminal t :: symbols) (.token t :: trees)
  | node {p : ProductionId} {n : NonterminalId} {rhs symbols : List Symbol}
      {children trees : List ParseTree} (rule : g.HasRule p n rhs)
      (below : Forest g rhs children) (rest : Forest g symbols trees) :
      Forest g (.nonterminal n :: symbols) (.node p children :: trees)

def IsTree (g : Grammar) (symbol : Symbol) (tree : ParseTree) : Prop :=
  g.Forest [symbol] [tree]

end Grammar

namespace ParseTree

mutual

/-- The tokens of a tree from left to right. -/
def leaves : ParseTree → List TerminalId
  | .token t => [t]
  | .node _ children => leavesAll children

def leavesAll : List ParseTree → List TerminalId
  | [] => []
  | tree :: trees => tree.leaves ++ leavesAll trees

end

mutual

/-- The productions of a tree, those of the children of a node before its own. -/
def reductions : ParseTree → List ProductionId
  | .token _ => []
  | .node p children => reductionsAll children ++ [p]

def reductionsAll : List ParseTree → List ProductionId
  | [] => []
  | tree :: trees => tree.reductions ++ reductionsAll trees

end

theorem leavesAll_append (trees trees' : List ParseTree) :
    leavesAll (trees ++ trees') = leavesAll trees ++ leavesAll trees' := by
  induction trees with
  | nil => rfl
  | cons tree trees ih => simp only [List.cons_append, leavesAll, ih, List.append_assoc]

end ParseTree

namespace Grammar

open ParseTree

variable {g : Grammar}

theorem Forest.append {u v : List Symbol} {trees trees' : List ParseTree}
    (h : g.Forest u trees) (h' : g.Forest v trees') : g.Forest (u ++ v) (trees ++ trees') := by
  induction h with
  | nil => exact h'
  | token _ ih => exact .token ih
  | node rule below _ _ ih => exact .node rule below ih

/-- The productions of a forest, read backwards, are those of a rightmost derivation of its
leaves. -/
theorem Forest.rightmost {symbols : List Symbol} {trees : List ParseTree}
    (h : g.Forest symbols trees) :
    g.Rightmost (reductionsAll trees).reverse symbols ((leavesAll trees).map .terminal) := by
  induction h with
  | nil => exact .refl []
  | @token t symbols trees _ ih =>
      simpa [leavesAll, leaves, reductionsAll, reductions] using ih.append_left [.terminal t]
  | @node p n rhs symbols children trees rule _ _ ihBelow ihRest =>
      have hrest := ihRest.append_left [.nonterminal n]
      have hbelow := ihBelow.append_right (leavesAll trees)
      have hnode := hrest.trans (Rightmost.step (u := []) (w := leavesAll trees) rule hbelow)
      simpa [leavesAll, leaves, reductionsAll, reductions] using hnode

theorem Forest.derives {symbols : List Symbol} {trees : List ParseTree}
    (h : g.Forest symbols trees) : g.Derives symbols ((leavesAll trees).map .terminal) :=
  h.rightmost.derives

end Grammar

end Lalr
