import Lalr.Proofs.Expressions

/-!
Declared precedence gives the expected grouping.  The parser decides with one operator waiting and
one coming next, while the grouping looks at all operators of a chain.  The two agree because the
operator that a chain is split at makes those before it give way, and gives way to those behind it:
what stands on either side is then parsed as a chain of its own.
-/

namespace Lalr

namespace PackedTables

variable {g : Grammar} {a : Automaton} {config : Config} {dense : Tables} {tables : PackedTables}

/-- Packed tables that do what the states are to do; an error that precedence asks for is an error
like any other. -/
structure Follows (tables : PackedTables) (g : Grammar) (a : Automaton) : Prop
    extends tables.Drives g a where
  exact : a.Exact g
  shift_of : ∀ {r s : StateId} {q : State} {t : TerminalId}, a.states[r.index]? = some q →
    g.Knows (.terminal t) → q.Resolves g t (.shift s) → tables.action r t = .ok (.shift s)
  reduce_of : ∀ {r : StateId} {q : State} {t : TerminalId} {p : ProductionId},
    a.states[r.index]? = some q → g.Knows (.terminal t) → q.Resolves g t (.reduce p) →
      tables.action r t = .ok (.reduce p)
  error_of : ∀ {r : StateId} {q : State} {t : TerminalId}, a.states[r.index]? = some q →
    g.Knows (.terminal t) → q.Resolves g t .nonassoc → tables.action r t = .ok .error
  -- a default reduction is done on other terminals too
  of_reduce : ∀ {r : StateId} {q : State} {t : TerminalId} {p : ProductionId},
    a.states[r.index]? = some q → tables.action r t = .ok (.reduce p) →
      ∃ u, q.Resolves g u (.reduce p)

theorem MadeFrom.follows (hg : g.WellFormed) (hm : tables.MadeFrom g a config dense)
    (hdense : dense.Resolved g a) : tables.Follows g a := by
  have hcell : ∀ {r : StateId} {q : State} {t : TerminalId} {action : Action},
      a.states[r.index]? = some q → g.Knows (.terminal t) → q.Resolves g t action →
      ∃ row, dense.actions.rows[r.index]? = some row ∧ row.get? t = some action := by
    intro r q t action hq ht h
    obtain ⟨row, gotos, hrow, -⟩ := hm.rows hq
    have hget := (hdense.action q (Array.mem_of_getElem? hq) t ht action).mpr h
    rw [ActionTable.get?, ActionTable.row?, hm.exact.id hq, hrow, Option.bind_some] at hget
    exact ⟨row, hrow, hget⟩
  refine ⟨hm.toDrives, hm.exact, fun hq ht h => ?_, fun hq ht h => ?_, fun hq ht h => ?_,
    fun {r q t p} hq h => ?_⟩
  · obtain ⟨row, hrow, hget⟩ := hcell hq ht h
    exact (hm.action_shift hrow).mpr hget
  · obtain ⟨row, hrow, hget⟩ := hcell hq ht h
    exact hm.action_of_reduce hrow hget
  · obtain ⟨row, hrow, hget⟩ := hcell hq ht h
    exact hm.action_of_nonassoc hrow hget
  · obtain ⟨row, gotos, hrow, htab⟩ := hm.rows hq
    rw [hm.action hrow, Except.ok.injEq] at h
    obtain ⟨u, hu⟩ := htab.exists_cell hg config h
    have hlt : u.index < g.terminals.size := by
      rw [← (hdense.row row (Array.mem_of_getElem? hrow)).1]
      exact (Array.getElem?_eq_some_iff.mp hu).1
    refine ⟨u, (hdense.action q (Array.mem_of_getElem? hq) u hlt _).mp ?_⟩
    rw [ActionTable.get?, ActionTable.row?, hm.exact.id hq, hrow, Option.bind_some, hu]

end PackedTables

theorem Config.exists_follows {declarations : List Declaration} {g : Grammar}
    (hg : Grammar.define declarations = .ok g) {config : Config} {sink reports : Diagnostics}
    {generated : Generated} (h : config.generate g sink = ⟨.ok generated, reports⟩) :
    ∃ tables entries, generated.pack = .ok tables ∧ tables.Follows g generated.automaton ∧
      Tallied g generated.automaton.states.toList generated.summary.counts entries := by
  have hwell := Grammar.wellFormed_of_define hg
  obtain ⟨dense, reported, hbuild, htables, hyields⟩ := generate_eq_ok h
  obtain ⟨tables, hpack, hmade⟩ :=
    (Tables.tabulate_of_fill htables).pack config hwell (Automaton.exact_of_build hwell hbuild)
  obtain ⟨_, _, hresolvedBuild, hresolved⟩ := Tables.resolved_of_build hg hbuild sink
  obtain ⟨_, _, entries, hreportedBuild, -, hreported⟩ := Tables.reported_of_build hg hbuild sink
  cases htables.symm.trans hresolvedBuild
  cases htables.symm.trans hreportedBuild
  refine ⟨tables, entries, ?_, hmade.follows hwell hresolved, ?_⟩
  · rw [Generated.pack, hyields.actions, hyields.gotos]
    exact hpack
  · rw [hyields.counts]
    exact hreported.tallied

namespace Parser

open Operators

variable {g : Grammar} {a : Automaton} {tables : PackedTables} {s : Operators}

section Steps

variable {γ : List Symbol} {stack : List Frame} {t : TerminalId}

theorem step_of_shift (hf : tables.Follows g a) (hstack : Stacked a γ stack)
    (ht : g.Knows (.terminal t))
    (h : ∀ q : State, a.states[(top tables stack).index]? = some q → q.Holds g γ →
      ∃ r, q.transition? (.terminal t) = some r ∧ q.Resolves g t (.shift r))
    (rest : List TerminalId) :
    ∃ r, step g tables ⟨stack, t :: rest⟩ = .next (.shift r) ⟨⟨r, .token t⟩ :: stack, rest⟩ ∧
      Stacked a (γ ++ [.terminal t]) (⟨r, .token t⟩ :: stack) := by
  obtain ⟨q, hq, hholds⟩ := hstack.exists_state hf.exact.toCharted hf.startState
  obtain ⟨r, hr, hresolves⟩ := h q hq hholds
  refine ⟨r, ?_, hstack.push_transition hf.startState hq hr _⟩
  unfold step
  simp only [hf.shift_of hq ht hresolves]

theorem step_of_reduce (hg : g.WellFormed) (hf : tables.Follows g a) {n : NonterminalId}
    {p : ProductionId} {rhs : List Symbol} (hrule : g.HasRule p n rhs) (hp : p ≠ .start)
    (hstack : Stacked a (γ ++ rhs) stack) (ht : g.Knows (.terminal t))
    (hvalid : g.ValidItem (γ ++ rhs) ⟨p, rhs.length⟩)
    (h : ∀ q : State, a.states[(top tables stack).index]? = some q → q.Holds g (γ ++ rhs) →
      q.Resolves g t (.reduce p)) (rest : List TerminalId) :
    ∃ r, step g tables ⟨stack, t :: rest⟩ = .next (.reduce p)
        ⟨⟨r, .node p ((stack.take rhs.length).reverse.map (·.tree))⟩ :: stack.drop rhs.length,
          t :: rest⟩ ∧
      ∀ tree, Stacked a (γ ++ [.nonterminal n]) (⟨r, tree⟩ :: stack.drop rhs.length) := by
  obtain ⟨q, hq, hholds⟩ := hstack.exists_state hf.exact.toCharted hf.startState
  have haction := hf.reduce_of hq ht (h q hq hholds)
  have hafter : g.after ⟨p, rhs.length⟩ = [] := by
    rw [hrule.after, List.drop_length]
  obtain ⟨n', rhs', front, r, hrule', -, hfront, -, hreduce, hstacked⟩ :=
    reduce_next hg hf.exact.toCharted hf.toDrives (c := ⟨stack, t :: rest⟩) hstack hvalid hafter hp
  obtain ⟨rfl, rfl⟩ := hrule.unique hrule'
  obtain rfl := List.append_cancel_right hfront
  refine ⟨r, ?_, hstacked⟩
  unfold step
  simp only [haction, hf.startProduction, if_neg hp]
  exact hreduce

end Steps

/-- An operator that comes next is shifted, if the last of those that wait lets it. -/
def Opens (s : Operators) (g : Grammar) (ks : List TerminalId) (o : TerminalId) : Prop :=
  ∀ k ∈ ks.getLast?, g.resolution? o (s.rule k) = some .shift

/-- What comes next makes an operator that waits take what is behind it. -/
def Closes (s : Operators) (g : Grammar) (t o : TerminalId) : Prop :=
  t = .eof ∨ t ∈ s.operators ∧ g.resolution? t (s.rule o) = some .reduce

/-- From a configuration the parser comes to an expression on top of a stack, or to a syntax
error. -/
def Comes (s : Operators) (g : Grammar) (tables : PackedTables) (a : Automaton)
    (ks : List TerminalId) (stack : List Frame) (input : List TerminalId) (c : Configuration) :
    Option Expression → Prop
  | some expression => ∃ events r, Reaches g tables c events
      ⟨⟨r, expression.tree s.atom s.atomRule s.rule⟩ :: stack, input⟩ ∧
      Stacked a (s.front ks ++ [.nonterminal s.expression])
        (⟨r, expression.tree s.atom s.atomRule s.rule⟩ :: stack)
  | none => ∃ events d t q, Reaches g tables c events d ∧
      step g tables d = .failed none (.syntaxError t q)

theorem Comes.of_reaches {ks : List TerminalId} {stack : List Frame} {input : List TerminalId}
    {c d : Configuration} {events : List Event} {result : Option Expression}
    (hreaches : Reaches g tables c events d) (h : Comes s g tables a ks stack input d result) :
    Comes s g tables a ks stack input c result := by
  cases result with
  | some expression =>
      obtain ⟨events', r, hrest, hstacked⟩ := h
      exact ⟨_, r, hreaches.trans hrest, hstacked⟩
  | none =>
      obtain ⟨events', e, t, q, hrest, hfailed⟩ := h
      exact ⟨_, e, t, q, hreaches.trans hrest, hfailed⟩

theorem opens_behind {o b : TerminalId} (h : g.resolution? b (s.rule o) = some .shift)
    (ks : List TerminalId) : Opens s g (ks ++ [o]) b := by
  intro k hk
  obtain rfl : o = k := by simpa using hk
  exact h

/-- The parser groups a chain as the levels say, whatever waits before it and comes next behind it,
as long as all its operators go before what waits and close before what comes next. -/
def Groups (s : Operators) (g : Grammar) (tables : PackedTables) (a : Automaton)
    (levels : List Level) (os : List TerminalId) : Prop :=
  os ⊆ s.operators → ∀ ks ⊆ s.operators, ∀ stack, Stacked a (s.front ks) stack →
    ∀ t rest, (t = .eof ∨ t ∈ s.operators) → (∀ o ∈ os, Opens s g ks o) →
      (∀ o ∈ os, Closes s g t o) →
      Comes s g tables a ks stack (t :: rest) ⟨stack, interspersed s.atom os ++ t :: rest⟩
        (group? levels os)

section Chain

variable (hs : s.Describes g) (hg : g.WellFormed) (hclosed : g.Closed) (hf : tables.Follows g a)
  {ks : List TerminalId} {stack : List Frame} {k o t : TerminalId} {rest : List TerminalId}

include hs hg hclosed hf

omit hg hf in
theorem knows_follower (ht : t = .eof ∨ t ∈ s.operators) : g.Knows (.terminal t) := by
  rcases ht with rfl | ht
  · exact hclosed.eof
  · exact hclosed.rhs (hs.operator t ht) _ (by simp)

theorem reaches_atom (hks : ks ⊆ s.operators) (hstack : Stacked a (s.front ks) stack)
    (ht : t = .eof ∨ t ∈ s.operators) :
    Comes s g tables a ks stack (t :: rest) ⟨stack, s.atom :: t :: rest⟩ (some .atom) := by
  have hatom : g.Knows (.terminal s.atom) := hclosed.rhs hs.atom _ (List.mem_singleton_self _)
  obtain ⟨r, hshift, hstacked⟩ := step_of_shift hf hstack hatom
    (fun q hq hholds => hs.resolves_front hg hf.exact hq hks hholds) (t :: rest)
  obtain ⟨r', hreduce, hstacked'⟩ := step_of_reduce hg hf hs.atom
    (hs.ne_start_of_rule hg hs.atom) hstacked (knows_follower hs hclosed ht)
    (hs.validLookahead_front hg hks hs.atom (.inl rfl)).validItem
    (fun q hq hholds => hs.resolves_atom hg hf.exact hq hks hholds ht) rest
  exact ⟨_, r', .step hshift (.step hreduce (.refl _)), hstacked' _⟩

theorem step_nonassoc (hks : ks ⊆ s.operators) (hk : k ∈ s.operators) (ho : o ∈ s.operators)
    (hresolution : g.resolution? o (s.rule k) = some .nonassoc)
    (hstack : Stacked a (s.front (ks ++ [k]) ++ [.nonterminal s.expression]) stack) :
    step g tables ⟨stack, o :: rest⟩ = .failed none (.syntaxError o (top tables stack)) := by
  obtain ⟨q, hq, hholds⟩ := hstack.exists_state hf.exact.toCharted hf.startState
  obtain ⟨r, -, hresolves⟩ := hs.resolves_operator hg hf.exact hq hks hk hholds ho hresolution
  unfold step
  simp only [hf.error_of hq (knows_follower hs hclosed (.inr ho)) hresolves]

theorem comes_nonassoc (hks : ks ⊆ s.operators) (hk : k ∈ s.operators) (ho : o ∈ s.operators)
    (hresolution : g.resolution? o (s.rule k) = some .nonassoc) {stack' : List Frame}
    {input' : List TerminalId} {c : Configuration} {middle : Option Expression}
    (h : Comes s g tables a (ks ++ [k]) stack (o :: rest) c middle) :
    Comes s g tables a ks stack' input' c none := by
  cases middle with
  | some middle =>
      obtain ⟨events, r, hreaches, hstacked⟩ := h
      exact ⟨_, _, _, _, hreaches,
        step_nonassoc hs hg hclosed hf hks hk ho hresolution hstacked⟩
  | none => exact h

variable {levels : List Level} {left middle right : List TerminalId} {b : TerminalId}

theorem groups_nil : Groups s g tables a levels [] := by
  intro _ ks hks stack hstack t rest ht _ _
  rw [group?]
  exact reaches_atom hs hg hclosed hf hks hstack ht

-- From here on the end of the input closes chains, so it must not go on with them.
variable (heof : .eof ∉ s.operators)

include heof

theorem step_operator (hks : ks ⊆ s.operators) (ho : o ∈ s.operators) (hopen : Opens s g ks o)
    (hstack : Stacked a (s.front ks ++ [.nonterminal s.expression]) stack)
    (rest : List TerminalId) :
    ∃ r, step g tables ⟨stack, o :: rest⟩ = .next (.shift r) ⟨⟨r, .token o⟩ :: stack, rest⟩ ∧
      Stacked a (s.front (ks ++ [o])) (⟨r, .token o⟩ :: stack) := by
  have hfront : s.front (ks ++ [o]) =
      s.front ks ++ [.nonterminal s.expression] ++ [.terminal o] := by
    rw [front_append_singleton, List.append_assoc]
    rfl
  rw [hfront]
  refine step_of_shift hf hstack (knows_follower hs hclosed (.inr ho)) (fun q hq hholds => ?_) rest
  rcases List.eq_nil_or_concat' ks with rfl | ⟨before, k, rfl⟩
  · exact hs.resolves_first hg hf.exact hq heof hholds ho
  · obtain ⟨hbefore, hk⟩ := List.append_subset.mp hks
    exact hs.resolves_operator hg hf.exact hq hbefore (hk (List.mem_singleton_self k)) hholds ho
      (hopen k (by simp))

theorem step_rule (hks : ks ⊆ s.operators) (hk : k ∈ s.operators) (hclose : Closes s g t k)
    {left middle right : Frame}
    (hstack : Stacked a (s.front (ks ++ [k]) ++ [.nonterminal s.expression])
      (right :: middle :: left :: stack)) :
    ∃ r, step g tables ⟨right :: middle :: left :: stack, t :: rest⟩ = .next (.reduce (s.rule k))
        ⟨⟨r, .node (s.rule k) [left.tree, middle.tree, right.tree]⟩ :: stack, t :: rest⟩ ∧
      ∀ tree, Stacked a (s.front ks ++ [.nonterminal s.expression]) (⟨r, tree⟩ :: stack) := by
  have hrule := hs.operator k hk
  have ht : t = .eof ∨ t ∈ s.operators := hclose.imp id And.left
  have hvalid := (hs.validLookahead_front hg hks hrule ht).validItem
  rw [front_append_rule] at hstack
  refine step_of_reduce hg hf hrule (hs.ne_start_of_rule hg hrule) hstack
    (knows_follower hs hclosed ht) hvalid (fun q hq hholds => ?_) rest
  rw [← front_append_rule] at hholds
  rcases hclose with rfl | ⟨ho, hresolution⟩
  · exact hs.resolves_eof hg hf.exact hq hks hk hholds heof
  · obtain ⟨r, -, hresolves⟩ :=
      hs.resolves_operator hg hf.exact hq hks hk hholds ho hresolution
    exact hresolves

theorem comes_apply (hks : ks ⊆ s.operators) (ho : o ∈ s.operators) (hclose : Closes s g t o)
    {left : Expression} {r r' : StateId} {c : Configuration} {result : Option Expression}
    (h : Comes s g tables a (ks ++ [o])
      (⟨r', .token o⟩ :: ⟨r, left.tree s.atom s.atomRule s.rule⟩ :: stack) (t :: rest) c result) :
    Comes s g tables a ks stack (t :: rest) c (result.map fun right => .apply left o right) := by
  cases result with
  | some right =>
      obtain ⟨events, r'', hreaches, hstacked⟩ := h
      obtain ⟨last, hreduce, hstacked'⟩ := step_rule hs hg hclosed hf heof hks ho hclose hstacked
      exact ⟨_, last, hreaches.trans (.step hreduce (.refl _)), hstacked' _⟩
  | none => exact h

theorem comes_operator (hks : ks ⊆ s.operators) (ho : o ∈ s.operators) (hopen : Opens s g ks o)
    {input input' : List TerminalId} {c : Configuration} {first : Option Expression}
    (hfirst : Comes s g tables a ks stack (o :: input) c first)
    {result : Expression → Option Expression}
    (hrest : ∀ left r r', Stacked a (s.front (ks ++ [o]))
        (⟨r', .token o⟩ :: ⟨r, left.tree s.atom s.atomRule s.rule⟩ :: stack) →
      Comes s g tables a ks stack input'
        ⟨⟨r', .token o⟩ :: ⟨r, left.tree s.atom s.atomRule s.rule⟩ :: stack, input⟩
        (result left)) :
    Comes s g tables a ks stack input' c (first.bind result) := by
  cases first with
  | some left =>
      obtain ⟨events, r, hreaches, hstacked⟩ := hfirst
      obtain ⟨r', hshift, hstacked'⟩ :=
        step_operator hs hg hclosed hf heof hks ho hopen hstacked input
      exact (hrest left r r' hstacked').of_reaches (hreaches.trans (.step hshift (.refl _)))
  | none => exact hfirst

theorem groups_split (hleft : Groups s g tables a levels left)
    (hright : Groups s g tables a levels right)
    (hgroup : group? levels (left ++ o :: right) =
      (group? levels left).bind fun l => (group? levels right).map fun r => .apply l o r)
    (hbefore : ∀ c ∈ left, g.resolution? o (s.rule c) = some .reduce)
    (hbehind : ∀ c ∈ right, g.resolution? c (s.rule o) = some .shift) :
    Groups s g tables a levels (left ++ o :: right) := by
  intro hos ks hks stack hstack t rest ht hopen hclose
  simp only [List.append_subset, List.cons_subset] at hos
  obtain ⟨hleftOps, ho, hrightOps⟩ := hos
  rw [hgroup, interspersed_append, List.append_assoc, List.cons_append]
  -- the left side is parsed with `o` next, the right side with `o` waiting
  have hfirst := hleft hleftOps ks hks stack hstack o (interspersed s.atom right ++ t :: rest)
    (.inr ho) (fun c hc => hopen c (by simp [hc])) (fun c hc => .inr ⟨ho, hbefore c hc⟩)
  refine comes_operator hs hg hclosed hf heof hks ho (hopen o (by simp)) hfirst
    fun l r r' hstacked => ?_
  have hrest := hright hrightOps (ks ++ [o]) (List.append_subset.mpr ⟨hks, by simpa using ho⟩) _
    hstacked t rest ht (fun c hc => opens_behind (hbehind c hc) ks)
    (fun c hc => hclose c (by simp [hc]))
  exact comes_apply hs hg hclosed hf heof hks ho (hclose o (by simp)) hrest

theorem groups_clash (hleft : Groups s g tables a levels left)
    (hmiddle : Groups s g tables a levels middle)
    (hgroup : group? levels (left ++ o :: (middle ++ b :: right)) = none)
    (hbefore : ∀ c ∈ left, g.resolution? o (s.rule c) = some .reduce)
    (hbetween : ∀ c ∈ middle, g.resolution? c (s.rule o) = some .shift ∧
      g.resolution? b (s.rule c) = some .reduce)
    (hmeet : g.resolution? b (s.rule o) = some .nonassoc) :
    Groups s g tables a levels (left ++ o :: (middle ++ b :: right)) := by
  intro hos ks hks stack hstack t rest ht hopen hclose
  simp only [List.append_subset, List.cons_subset] at hos
  obtain ⟨hleftOps, ho, hmiddleOps, hb, -⟩ := hos
  rw [hgroup, interspersed_append, interspersed_append, List.append_assoc, List.cons_append,
    List.append_assoc, List.cons_append, ← Option.bind_fun_none (group? levels left)]
  have hfirst := hleft hleftOps ks hks stack hstack o
    (interspersed s.atom middle ++ b :: (interspersed s.atom right ++ t :: rest)) (.inr ho)
    (fun c hc => hopen c (by simp [hc])) (fun c hc => .inr ⟨ho, hbefore c hc⟩)
  refine comes_operator hs hg hclosed hf heof hks ho (hopen o (by simp)) hfirst
    fun l r r' hstacked => ?_
  -- what stands between the two is still parsed, with the first waiting and the second next
  have hrest := hmiddle hmiddleOps (ks ++ [o]) (List.append_subset.mpr ⟨hks, by simpa using ho⟩) _
    hstacked b (interspersed s.atom right ++ t :: rest) (.inr hb)
    (fun c hc => opens_behind (hbetween c hc).1 ks) (fun c hc => .inr ⟨hb, (hbetween c hc).2⟩)
  exact comes_nonassoc hs hg hclosed hf hks ho hb hmeet hrest

/-- The parser groups every chain as the levels say.  The induction is on the number of operators:
either side of the split is a chain with fewer. -/
theorem groups_chain
    (hlevels : ∀ o ∈ s.operators, ∃ i level, Ranked levels g.precedenceOn o i level)
    (hrules : ∀ o ∈ s.operators, g.precedenceOf (s.rule o) = g.precedenceOn o)
    {os : List TerminalId} (hos : os ⊆ s.operators) : Groups s g tables a levels os := by
  have hdecide : ∀ o ∈ s.operators, ∀ b,
      g.resolution? b (s.rule o) = Resolution.of g.precedenceOn b o := by
    intro o ho b
    rw [Grammar.resolution?, hrules o ho]
  induction hn : os.length using Nat.strong_induction_on generalizing os with
  | _ n ih =>
    by_cases hne : os = []
    · subst hne
      exact groups_nil hs hg hclosed hf
    · rcases group?_cases (fun o ho => hlevels o (hos ho)) hne with
        ⟨left, o, right, rfl, hgroup, hleft, hright⟩ |
        ⟨left, o, middle, b, right, rfl, hgroup, hleft, hmiddle, hmeet⟩
      all_goals simp only [List.length_append, List.length_cons] at hn
      all_goals simp only [List.append_subset, List.cons_subset] at hos
      · obtain ⟨hleftOps, ho, hrightOps⟩ := hos
        refine groups_split hs hg hclosed hf heof (ih left.length (by omega) hleftOps rfl)
          (ih right.length (by omega) hrightOps rfl) hgroup (fun c hc => ?_) (fun c hc => ?_)
        · rw [hdecide c (hleftOps hc), hleft c hc]
        · rw [hdecide o ho, hright c hc]
      · obtain ⟨hleftOps, ho, hmiddleOps, hb, -⟩ := hos
        refine groups_clash hs hg hclosed hf heof (ih left.length (by omega) hleftOps rfl)
          (ih middle.length (by omega) hmiddleOps rfl) hgroup (fun c hc => ?_)
          (fun c hc => ⟨?_, ?_⟩) ?_
        · rw [hdecide c (hleftOps hc), hleft c hc]
        · rw [hdecide o ho, (hmiddle c hc).1]
        · rw [hdecide c (hmiddleOps hc), (hmiddle c hc).2]
        · rw [hdecide o ho, hmeet]

end Chain

end Parser

namespace Operators

variable {declarations : List Declaration} {g : Grammar} {s : Operators}

/-- Every operator is named in one precedence call, which succeeds, and no rule that mentions one
has a precedence of its own. -/
structure Leveled (s : Operators) (declarations : List Declaration) : Prop where
  opens : ∀ o ∈ s.operators, Draft.initial.opens o declarations = true
  one : ∀ o ∈ s.operators, (levels declarations).countP (o ∈ ·.terminals) = 1
  unset : ∀ o ∈ s.operators, ∀ r ∈ (Draft.initial.declareAll declarations).rules,
    .terminal o ∈ r.symbols → r.precedence = none

theorem Leveled.exists_ranked (hl : s.Leveled declarations)
    (hg : Grammar.define declarations = .ok g) {o : TerminalId} (ho : o ∈ s.operators) :
    ∃ i level, Ranked (levels declarations) g.precedenceOn o i level := by
  have hone := hl.one o ho
  have hpos : 0 < (levels declarations).countP (o ∈ ·.terminals) := by
    rw [hone]
    exact Nat.zero_lt_one
  obtain ⟨level, hlevel, hmem⟩ := List.countP_pos_iff.mp hpos
  obtain ⟨below, above, hlevels⟩ := List.append_of_mem hlevel
  -- neither side of the level names the operator, so it is the last one that does
  rw [hlevels, List.countP_append,
    @List.countP_cons_of_pos _ (fun other : Level => decide (o ∈ other.terminals)) _ _ hmem] at hone
  have hbelow := List.countP_eq_zero.mp (show below.countP (o ∈ ·.terminals) = 0 by omega)
  have habove := List.countP_eq_zero.mp (show above.countP (o ∈ ·.terminals) = 0 by omega)
  simp only [decide_eq_true_eq] at hmem hbelow habove
  refine ⟨below.length, level, by simp [hlevels], hmem, fun j other hother hon => ?_,
    Grammar.precedenceOn_of_define hg (hl.opens o ho) hlevels hmem habove⟩
  rw [hlevels, List.getElem?_append] at hother
  split at hother
  · exact absurd hon (hbelow other (List.mem_of_getElem? hother))
  · rename_i hle
    rcases hj : j - below.length with _ | k
    · omega
    · rw [hj, List.getElem?_cons_succ] at hother
      exact absurd hon (habove other (List.mem_of_getElem? hother))

/-- In the tables of operators with precedences, shifts and reductions meet only where precedence
decides, and reductions never do. -/
theorem Describes.counts_eq (hs : s.Describes g) (hg : g.WellFormed) {a : Automaton}
    (ha : a.Exact g) {levels : List Level}
    (hlevels : ∀ o ∈ s.operators, ∃ i level, Ranked levels g.precedenceOn o i level)
    {counts : ConflictCounts} {reports : List Diagnostic}
    (h : Tallied g a.states.toList counts reports) :
    counts.conflicts = 0 ∧ counts.shiftReduce = counts.resolved := by
  have hon : ∀ o ∈ s.operators, (g.precedenceOn o).isSome = true := by
    intro o ho
    obtain ⟨i, level, hranked⟩ := hlevels o ho
    exact hranked.isSome
  have hholds : ∀ q ∈ a.states.toList, ∃ i : Nat, a.states[i]? = some q ∧ ∃ γ, q.Holds g γ := by
    intro q hq
    obtain ⟨i, hi⟩ := Array.getElem?_of_mem (Array.mem_toList_iff.mp hq)
    exact ⟨i, hi, ha.holds hi⟩
  have hdecides : {x : State × TerminalId | x.1 ∈ a.states.toList ∧ x.1.Disputes g x.2} =
      {x | x.1 ∈ a.states.toList ∧ x.1.Decides g x.2} := by
    ext ⟨q, t⟩
    refine and_congr_right fun hq => ⟨fun hdisputes => ?_, ?_⟩
    · obtain ⟨i, hi, γ, hγ⟩ := hholds q hq
      exact hs.decides_of_disputes hg ha hi hon hγ hdisputes
    · rintro ⟨hshift, p, hreduces, -⟩
      exact ⟨hshift, p, hreduces.1⟩
  have hrivals : {x : State × Sym2 Item | x.1 ∈ a.states.toList ∧ x.1.Rivals g x.2} = ∅ := by
    refine Set.eq_empty_of_forall_notMem ?_
    rintro ⟨q, z⟩ ⟨hq, x, y, -, hne, hx, hy, -⟩
    obtain ⟨i, hi, γ, hγ⟩ := hholds q hq
    exact hne (hs.ends_unique hg hγ hx hy)
  have hshift : counts.shiftReduce = counts.resolved := by
    have hcard := h.shiftReduce
    rw [hdecides, h.resolved] at hcard
    exact (Nat.cast_inj.mp hcard).symm
  have hreduce : counts.reduceReduce = 0 := by
    have hcard := h.reduceReduce
    rw [hrivals, Set.encard_empty] at hcard
    exact (Nat.cast_eq_zero.mp hcard.symm)
  have hconflicts := h.conflicts
  omega

end Operators

namespace Parser

variable {g : Grammar} {a : Automaton} {tables : PackedTables} {s : Operators}

theorem accepts_of_comes (hs : s.Describes g) (hg : g.WellFormed) (hf : tables.Follows g a)
    (hknown : g.Knows (.terminal .eof)) (heof : .eof ∉ s.operators) {tokens : List TerminalId} {expression : Expression}
    (h : Comes s g tables a [] [] [.eof] (start tokens) (some expression)) :
    ∃ trace, Accepts g tables tokens (expression.tree s.atom s.atomRule s.rule) trace := by
  obtain ⟨events, r, hreaches, hstacked⟩ := h
  obtain ⟨q, hq, hholds⟩ := hstacked.exists_state hf.exact.toCharted hf.startState
  have haccept := hf.reduce_of hq hknown (hs.resolves_accept hg hf.exact hq heof hholds)
  refine ⟨_, accepts_iff.mpr ⟨events, _, hreaches, ?_, rfl⟩⟩
  unfold step
  simp only [haccept, hf.startProduction, if_pos]

theorem failed_of_comes {tokens : List TerminalId}
    (h : Comes s g tables a [] [] [.eof] (start tokens) none) :
    ∃ rounds t q, (run g tables rounds (start tokens) []).1 = .failed (.syntaxError t q) := by
  obtain ⟨events, d, t, q, hreaches, hfailed⟩ := h
  refine ⟨events.length + 1, t, q, ?_⟩
  rw [hreaches.run_eq, run, hfailed]

theorem Accepts.not_failed {tokens : List TerminalId} {tree : ParseTree} {trace : List Event}
    (h : Accepts g tables tokens tree trace) :
    ¬ ∃ rounds t q, (run g tables rounds (start tokens) []).1 = .failed (.syntaxError t q) := by
  rintro ⟨rounds, t, q, hfailed⟩
  have hfailure := congrArg Outcome.failure? hfailed
  exact not_accepts_of_run rounds hfailure nofun tree trace h

/-- Chains are accepted as the levels group them, unless the end of the input is an operator. -/
theorem accepts_iff_group? (hs : s.Describes g) (hg : g.WellFormed) (hclosed : g.Closed)
    (hf : tables.Follows g a) (heof : .eof ∉ s.operators) {levels : List Level}
    (hlevels : ∀ o ∈ s.operators, ∃ i level, Ranked levels g.precedenceOn o i level)
    (hrules : ∀ o ∈ s.operators, g.precedenceOf (s.rule o) = g.precedenceOn o)
    {os : List TerminalId} (hos : os ⊆ s.operators) :
    (∀ tree, (∃ trace, Accepts g tables (interspersed s.atom os) tree trace) ↔
      ∃ expression, group? levels os = some expression ∧
        tree = expression.tree s.atom s.atomRule s.rule) ∧
    ((∃ rounds t q, (run g tables rounds (start (interspersed s.atom os)) []).1 =
        .failed (.syntaxError t q)) ↔ group? levels os = none) := by
  have hcomes := groups_chain hs hg hclosed hf heof hlevels hrules hos hos [] (List.nil_subset _)
    [] .nil .eof [] (.inl rfl) (fun _ _ _ h => by cases h) fun _ _ => .inl rfl
  rcases hgroup : group? levels os with _ | expression
  · rw [hgroup] at hcomes
    have hfailed := failed_of_comes hcomes
    refine ⟨fun tree => ⟨?_, nofun⟩, fun _ => rfl, fun _ => hfailed⟩
    rintro ⟨trace, haccepts⟩
    exact absurd hfailed haccepts.not_failed
  · rw [hgroup] at hcomes
    obtain ⟨trace, haccepts⟩ := accepts_of_comes hs hg hf hclosed.eof heof hcomes
    refine ⟨fun tree => ⟨?_, ?_⟩, fun hfailed => absurd hfailed haccepts.not_failed, nofun⟩
    · rintro ⟨trace', haccepts'⟩
      exact ⟨expression, rfl, (haccepts'.unique haccepts).1⟩
    · rintro ⟨_, heq, rfl⟩
      cases heq
      exact ⟨trace, haccepts⟩

/-- If the end of the input is an operator, the parser goes on where it should accept. -/
theorem not_accepts_of_eof (hs : s.Describes g) (hg : g.WellFormed) (hf : tables.Follows g a)
    (heof : .eof ∈ s.operators) (hon : (g.precedenceOn .eof).isSome = true)
    (hof : g.precedenceOf .start = none) {tokens : List TerminalId} {tree : ParseTree}
    {trace : List Event} : ¬ Accepts g tables tokens tree trace := by
  intro h
  obtain ⟨events, d, hreaches, haccept, -⟩ := accepts_iff.mp h
  obtain ⟨γ, hparsed⟩ :=
    (parsed_start g a tokens).reaches hg hf.exact.toCharted hf.toDrives hreaches
  obtain ⟨t, rest, r, below, -, -, haction⟩ := step_accepted haccept
  obtain ⟨q, hq, hholds⟩ := hparsed.stacked.exists_state hf.exact.toCharted hf.startState
  rw [hf.startProduction] at haction
  obtain ⟨u, hresolves⟩ := hf.of_reduce hq haction
  exact hs.not_resolves_start hg hf.exact hq heof hon hof hholds hresolves

/-- Declared precedence gives the expected grouping.  In a grammar of binary operators, each on one
level and none with a rule that has a precedence of its own, precedence decides wherever a shift
meets a reduction, and nothing else conflicts.  A chain of operators is accepted with the tree that
the levels group it to, and only with that; the parser stops with a syntax error exactly if
somewhere in the grouping a level that is not associative is repeated.  If however the end of the
input is itself an operator, nothing is accepted. -/
theorem groups_of_generate {declarations : List Declaration}
    (hg : Grammar.define declarations = .ok g) (hs : s.Describes g) (hl : s.Leveled declarations)
    {config : Config} {sink reports : Diagnostics} {generated : Generated}
    (h : config.generate g sink = ⟨.ok generated, reports⟩) :
    generated.summary.counts.conflicts = 0 ∧
      generated.summary.counts.shiftReduce = generated.summary.counts.resolved ∧
      ∃ tables, generated.pack = .ok tables ∧
        (.eof ∉ s.operators → ∀ os ⊆ s.operators,
          (∀ tree, (∃ trace, Accepts g tables (interspersed s.atom os) tree trace) ↔
            ∃ expression, group? (levels declarations) os = some expression ∧
              tree = expression.tree s.atom s.atomRule s.rule) ∧
          ((∃ rounds t q, (run g tables rounds (start (interspersed s.atom os)) []).1 =
              .failed (.syntaxError t q)) ↔ Repeats (levels declarations) os)) ∧
        (.eof ∈ s.operators → ∀ tokens tree trace, ¬ Accepts g tables tokens tree trace) := by
  have hwell := Grammar.wellFormed_of_define hg
  have hlevels : ∀ o ∈ s.operators, ∃ i level,
      Ranked (levels declarations) g.precedenceOn o i level :=
    fun o ho => hl.exists_ranked hg ho
  have hrules : ∀ o ∈ s.operators, g.precedenceOf (s.rule o) = g.precedenceOn o :=
    fun o ho => Grammar.precedenceOf_of_define hg (hl.unset o ho) (hs.operator o ho)
  obtain ⟨tables, entries, hpack, hf, htallied⟩ := Config.exists_follows hg h
  obtain ⟨hconflicts, hcounts⟩ := hs.counts_eq hwell hf.exact hlevels htallied
  refine ⟨hconflicts, hcounts, tables, hpack, fun heof os hos => ?_,
    fun heof tokens tree trace => ?_⟩
  · have hleveled : ∀ o ∈ os, ∃ level ∈ levels declarations, o ∈ level.terminals := by
      intro o ho
      obtain ⟨i, level, hranked⟩ := hlevels o (hos ho)
      exact ⟨level, List.mem_of_getElem? hranked.entry, hranked.mem⟩
    rw [← group?_eq_none_iff hleveled]
    exact accepts_iff_group? hs hwell (Grammar.closed_of_define hg) hf heof hlevels hrules hos
  · obtain ⟨i, level, hranked⟩ := hlevels .eof heof
    exact not_accepts_of_eof hs hwell hf heof hranked.isSome (Grammar.precedenceOf_start hg)

/-- The grammar of expressions with `"<"`, `"+"` and `"^"`, where comparisons bind least and cannot
be chained. -/
def arithmetic : List Declaration :=
  [.terminal "x" none, .terminal "<" none, .terminal "+" none, .terminal "^" none, .nonterminal "E",
    .level .nonassoc [.nth 3], .level .left [.nth 4], .level .right [.nth 5],
    .rule (.nth 1) [.terminal 2] none,
    .rule (.nth 1) [.nonterminal 1, .terminal 3, .nonterminal 1] none,
    .rule (.nth 1) [.nonterminal 1, .terminal 4, .nonterminal 1] none,
    .rule (.nth 1) [.nonterminal 1, .terminal 5, .nonterminal 1] none]

def arithmeticOperators : Operators where
  expression := .nth 1
  atom := .nth 2
  operators := [.nth 3, .nth 4, .nth 5]
  atomRule := .nth 1
  rule o := if o = .nth 3 then .nth 2 else if o = .nth 4 then .nth 3 else .nth 4

theorem leveled_arithmetic : arithmeticOperators.Leveled arithmetic where
  opens := by decide +kernel
  one := by decide +kernel
  unset := by decide +kernel

/-- `x + x < x ^ x ^ x` is read with the comparison outermost and the powers to the right, and
`x < x + x < x` not at all. -/
theorem groups_of_generate_arithmetic :
    ∃ g generated tables, Grammar.define arithmetic = .ok g ∧
      (∃ reports, Config.generate {} g ∅ = ⟨.ok generated, reports⟩) ∧
      generated.pack = .ok tables ∧ generated.summary.counts.conflicts = 0 ∧
      (∃ trace, Accepts g tables (interspersed (.nth 2) [.nth 4, .nth 3, .nth 5, .nth 5])
        (Expression.tree (.nth 2) (.nth 1) arithmeticOperators.rule
          (.apply (.apply .atom (.nth 4) .atom) (.nth 3)
            (.apply .atom (.nth 5) (.apply .atom (.nth 5) .atom)))) trace) ∧
      ∃ rounds t q, (run g tables rounds
          (start (interspersed (.nth 2) [.nth 3, .nth 4, .nth 3])) []).1 =
        .failed (.syntaxError t q) := by
  have hrun : (Config.tablesOf {} arithmetic).any
      (fun (g, _, _) => arithmeticOperators.Describes g) = true := by
    decide +kernel
  obtain ⟨⟨g, generated, tables⟩, htables, hs⟩ := (Option.any_eq_true _ _).mp hrun
  obtain ⟨hg, ⟨reports, hgenerate⟩, hpack⟩ := Config.tablesOf_eq_some htables
  obtain ⟨hconflicts, -, tables', hpack', hgroups, -⟩ :=
    groups_of_generate hg (of_decide_eq_true hs) leveled_arithmetic hgenerate
  obtain rfl : tables = tables' := Except.ok.inj (hpack.symm.trans hpack')
  have hall := hgroups (by decide)
  refine ⟨g, generated, tables, hg, ⟨reports, hgenerate⟩, hpack, hconflicts, ?_, ?_⟩
  · obtain ⟨haccepts, -⟩ := hall [.nth 4, .nth 3, .nth 5, .nth 5] (by decide)
    exact (haccepts _).mpr ⟨_, by cbv, rfl⟩
  · obtain ⟨-, hfails⟩ := hall [.nth 3, .nth 4, .nth 3] (by decide)
    exact hfails.mpr (@Repeats.here _ _ ⟨.nonassoc, [.nth 3]⟩ rfl rfl (by decide))

/-- A grammar of expressions whose only operator is the end of the input. -/
def closing : List Declaration :=
  [.terminal "x" none, .nonterminal "E", .level .left [.eof], .rule (.nth 1) [.terminal 2] none,
    .rule (.nth 1) [.nonterminal 1, .terminal 0, .nonterminal 1] none]

def closingOperators : Operators where
  expression := .nth 1
  atom := .nth 2
  operators := [.eof]
  atomRule := .nth 1
  rule _ := .nth 2

theorem leveled_closing : closingOperators.Leveled closing where
  opens := by decide +kernel
  one := by decide +kernel
  unset := by decide +kernel

/-- Where the end of the input is an operator, not even an atom is accepted. -/
theorem not_accepts_closing :
    ∃ g generated tables, Grammar.define closing = .ok g ∧ closingOperators.Describes g ∧
      closingOperators.Leveled closing ∧
      (∃ reports, Config.generate {} g ∅ = ⟨.ok generated, reports⟩) ∧
      generated.pack = .ok tables ∧ group? (levels closing) [] = some .atom ∧
      ∀ tree trace, ¬ Accepts g tables (interspersed (.nth 2) []) tree trace := by
  have hrun : (Config.tablesOf {} closing).any
      (fun (g, _, _) => closingOperators.Describes g) = true := by
    decide +kernel
  obtain ⟨⟨g, generated, tables⟩, htables, hdescribes⟩ := (Option.any_eq_true _ _).mp hrun
  obtain ⟨hg, ⟨reports, hgenerate⟩, hpack⟩ := Config.tablesOf_eq_some htables
  have hs : closingOperators.Describes g := of_decide_eq_true hdescribes
  obtain ⟨tables', entries, hpack', hf, -⟩ := Config.exists_follows hg hgenerate
  obtain rfl : tables = tables' := Except.ok.inj (hpack.symm.trans hpack')
  have heof : .eof ∈ closingOperators.operators := List.mem_singleton_self TerminalId.eof
  obtain ⟨i, level, hranked⟩ := leveled_closing.exists_ranked hg heof
  refine ⟨g, generated, tables, hg, hs, leveled_closing, ⟨reports, hgenerate⟩, hpack,
    by rw [group?], fun tree trace => ?_⟩
  exact not_accepts_of_eof hs (Grammar.wellFormed_of_define hg) hf heof hranked.isSome
    (Grammar.precedenceOf_start hg)

end Parser

end Lalr
