import Mathlib.Data.Set.Card
import Mathlib.Data.Sym.Sym2
import Lalr.Proofs.Encounters

namespace Lalr

variable {g : Grammar}

theorem encard_eq_length {α : Type} {P : α → Prop} {as : List α} (hnodup : as.Nodup)
    (h : ∀ a, P a ↔ a ∈ as) : {a | P a}.encard = as.length := by
  classical
  have hset : {a | P a} = (as.toFinset : Set α) := by
    ext a
    simp [h]
  rw [hset, Set.encard_coe_eq_coe_finsetCard, List.toFinset_card_of_nodup hnodup]

theorem encard_pairs_cons {α β : Type} {P : α → β → Prop} {a : α} {as : List α} (ha : a ∉ as) :
    {x : α × β | x.1 ∈ a :: as ∧ P x.1 x.2}.encard =
      {b | P a b}.encard + {x : α × β | x.1 ∈ as ∧ P x.1 x.2}.encard := by
  have hsplit : {x : α × β | x.1 ∈ a :: as ∧ P x.1 x.2} =
      Prod.mk a '' {b | P a b} ∪ {x | x.1 ∈ as ∧ P x.1 x.2} := by
    ext ⟨c, b⟩
    simp only [Set.mem_ofPred_eq, List.mem_cons, Set.mem_union, Set.mem_image, Prod.mk.injEq]
    constructor
    · rintro ⟨rfl | hc, h⟩
      · exact .inl ⟨b, h, rfl, rfl⟩
      · exact .inr ⟨hc, h⟩
    · rintro (⟨b', h, rfl, rfl⟩ | ⟨hc, h⟩)
      · exact ⟨.inl rfl, h⟩
      · exact ⟨.inr hc, h⟩
  have hdisjoint : Disjoint (Prod.mk a '' {b | P a b}) {x | x.1 ∈ as ∧ P x.1 x.2} := by
    rw [Set.disjoint_left]
    rintro - ⟨b, -, rfl⟩ ⟨hmem, -⟩
    exact ha hmem
  rw [hsplit, Set.encard_union_eq hdisjoint, (Prod.mk_right_injective a).encard_image]

namespace Diagnostic

def isResolved : Diagnostic → Bool
  | resolved .. => true
  | _ => false

def isReduceReduce : Diagnostic → Bool
  | reduceReduce .. => true
  | _ => false

def state? : Diagnostic → Option StateId
  | reduceReduce state .. => some state
  | shiftReduce state .. => some state
  | resolved state .. => some state
  | _ => none

end Diagnostic

namespace Grammar

variable {t : TerminalId} {p : ProductionId}

theorem resolution?_eq_none :
    g.resolution? t p = none ↔ g.precedenceOn t = none ∧ g.precedenceOf p = none :=
  Resolution.between_eq_none

theorem resolution?_isSome : (g.resolution? t p).isSome = true ↔
    (g.precedenceOn t).isSome = true ∨ (g.precedenceOf p).isSome = true := by
  rw [← not_iff_not, not_or]
  simp only [Bool.not_eq_true, Option.isSome_eq_false_iff, Option.isNone_iff_eq_none,
    resolution?_eq_none]

theorem resolution?_eq_some {resolution : Resolution} : g.resolution? t p = some resolution ↔
    ((g.precedenceOn t).isSome = true ∨ (g.precedenceOf p).isSome = true) ∧
      Resolution.Declared (g.precedenceOn t) (g.precedenceOf p) resolution := by
  rw [Resolution.declared_iff, ← resolution?_isSome, resolution?]
  cases Resolution.between (g.precedenceOn t) (g.precedenceOf p) <;> simp

end Grammar

namespace State

variable {q : State}

/-- On `t` the state could shift, and reduce by a completed item. -/
def Disputes (g : Grammar) (q : State) (t : TerminalId) : Prop :=
  (q.transition? (.terminal t)).isSome = true ∧ ∃ p, q.Completes g t p

/-- A dispute on which precedence has something to say: the terminal has one, or the lowest
production that the state could reduce by. -/
def Decides (g : Grammar) (q : State) (t : TerminalId) : Prop :=
  (q.transition? (.terminal t)).isSome = true ∧ ∃ p, q.Reduces g t p ∧
    ((g.precedenceOn t).isSome = true ∨ (g.precedenceOf p).isSome = true)

/-- Two completed items that have a terminal in common in their lookaheads. -/
def Rivals (g : Grammar) (q : State) (z : Sym2 Item) : Prop :=
  ∃ x y, z = s(x, y) ∧ x ≠ y ∧ q.Ends g x ∧ q.Ends g y ∧ ∃ t, t ∈ x.lookahead ∧ t ∈ y.lookahead

inductive Reports (g : Grammar) (q : State) : Diagnostic → Prop
  | reduceReduce {x y : Item} (hx : q.Ends g x) (hy : q.Ends g y)
      (lower : x.core.production < y.core.production)
      (common : ∃ t, t ∈ x.lookahead ∧ t ∈ y.lookahead) :
      Reports g q (.reduceReduce q.id x.core y.core (x.lookahead ∩ y.lookahead))
  | shiftReduce {t : TerminalId} {p : ProductionId} (lowest : q.Reduces g t p)
      (shift : (q.transition? (.terminal t)).isSome = true) (on : g.precedenceOn t = none)
      (of : g.precedenceOf p = none) :
      Reports g q (.shiftReduce q.id (g.finalCore p) (q.expecting g t) t)
  | resolved {t : TerminalId} {p : ProductionId} {resolution : Resolution}
      (lowest : q.Reduces g t p) (shift : (q.transition? (.terminal t)).isSome = true)
      (precedence : (g.precedenceOn t).isSome = true ∨ (g.precedenceOf p).isSome = true)
      (declared : Resolution.Declared (g.precedenceOn t) (g.precedenceOf p) resolution) :
      Reports g q (.resolved q.id p t resolution)

theorem Reports.state?_eq {d : Diagnostic} (h : q.Reports g d) : d.state? = some q.id := by
  cases h <;> rfl

theorem Grounded.eq_of_production (hq : q.Grounded g) {x y : Item} (hx : q.Ends g x)
    (hy : q.Ends g y) (h : x.core.production = y.core.production) : x = y := by
  have hcore : ∀ {item}, q.Ends g item → item.core = g.finalCore item.core.production :=
    fun {item} hitem =>
      hq.core_eq hitem.1 ((Grammar.atEnd_iff (hq.production item hitem.1)).mp hitem.2)
  refine ItemSet.core_inj hx.1 hy.1 ?_
  rw [hcore hx, hcore hy, h]

namespace Encounters

variable (e : q.Encounters g)

theorem length_resolved : e.resolved.length =
    (e.meetings.filter fun (t, p) => (g.resolution? t p).isSome).length := by
  rw [resolved, List.length_filterMap_eq_countP, ← List.countP_eq_length_filter]
  simp only [Option.isSome_map]

theorem length_meetings : e.resolved.length + e.unresolved.length = e.meetings.length := by
  rw [length_resolved, unresolved, List.length_eq_length_filter_add (l := e.meetings)
    fun (t, p) => (g.resolution? t p).isSome]
  simp only [Option.not_isSome]

theorem encard_disputes : {t | q.Disputes g t}.encard = e.counts.shiftReduce := by
  have hmem : ∀ t, q.Disputes g t ↔ t ∈ e.meetings.map (·.1) := by
    intro t
    simp only [List.mem_map, Prod.exists, exists_and_right, exists_eq_right, e.mem_meetings]
    constructor
    · rintro ⟨hshift, p, hp⟩
      exact ⟨hp.exists_reduces, hshift⟩
    · rintro ⟨⟨p, hp⟩, hshift⟩
      exact ⟨hshift, p, hp.1⟩
  rw [encard_eq_length e.nodup_meetings hmem, List.length_map, ← e.length_meetings]
  rfl

theorem encard_decides : {t | q.Decides g t}.encard = e.counts.resolved := by
  have hmem : ∀ t, q.Decides g t ↔
      t ∈ (e.meetings.filter fun (t, p) => (g.resolution? t p).isSome).map (·.1) := by
    intro t
    simp only [List.mem_map, Prod.exists, exists_and_right, exists_eq_right, List.mem_filter,
      e.mem_meetings, Grammar.resolution?_isSome]
    constructor
    · rintro ⟨hshift, p, hp, hprecedence⟩
      exact ⟨p, ⟨hp, hshift⟩, hprecedence⟩
    · rintro ⟨p, ⟨hp, hshift⟩, hprecedence⟩
      exact ⟨hshift, p, hp, hprecedence⟩
  rw [encard_eq_length (e.nodup_meetings.sublist (List.filter_sublist.map _)) hmem,
    List.length_map, ← e.length_resolved]
  rfl

theorem encard_rivals (hq : q.Grounded g) :
    {z | q.Rivals g z}.encard = e.counts.reduceReduce := by
  have hmem : ∀ z, q.Rivals g z ↔ z ∈ e.rivals.map fun xy => s(xy.1, xy.2) := by
    intro z
    simp only [List.mem_map, Prod.exists, e.mem_rivals]
    constructor
    · rintro ⟨x, y, rfl, hne, hx, hy, t, htx, hty⟩
      rcases Nat.lt_trichotomy x.core.production.index y.core.production.index with h | h | h
      · exact ⟨x, y, ⟨hx, hy, h, t, htx, hty⟩, rfl⟩
      · exact absurd (hq.eq_of_production hx hy (Ident.ext_index h)) hne
      · exact ⟨y, x, ⟨hy, hx, h, t, hty, htx⟩, Sym2.eq_swap⟩
    · rintro ⟨x, y, ⟨hx, hy, hlt, ht⟩, rfl⟩
      refine ⟨x, y, rfl, ?_, hx, hy, ht⟩
      rintro rfl
      exact Nat.lt_irrefl _ hlt
  have hnodup : (e.rivals.map fun xy => s(xy.1, xy.2)).Nodup := by
    refine (List.nodup_map_iff_inj_on e.nodup_rivals).mpr ?_
    rintro ⟨x, y⟩ hxy ⟨x', y'⟩ hxy' heq
    rcases Sym2.eq_iff.mp heq with ⟨rfl, rfl⟩ | ⟨rfl, rfl⟩
    · rfl
    · exact absurd (e.mem_rivals.mp hxy').2.2.1 (Nat.lt_asymm (e.mem_rivals.mp hxy).2.2.1)
  rw [encard_eq_length hnodup hmem, List.length_map]
  rfl

theorem mem_resolved {d : Diagnostic} : d ∈ e.resolved ↔ ∃ t p resolution,
    q.Reduces g t p ∧ (q.transition? (.terminal t)).isSome = true ∧
      ((g.precedenceOn t).isSome = true ∨ (g.precedenceOf p).isSome = true) ∧
      Resolution.Declared (g.precedenceOn t) (g.precedenceOf p) resolution ∧
      d = .resolved q.id p t resolution := by
  simp only [resolved, List.mem_filterMap, Prod.exists, e.mem_meetings, Option.map_eq_some_iff,
    Grammar.resolution?_eq_some]
  constructor
  · rintro ⟨t, p, ⟨hp, hshift⟩, resolution, ⟨hprecedence, hdeclared⟩, rfl⟩
    exact ⟨t, p, resolution, hp, hshift, hprecedence, hdeclared, rfl⟩
  · rintro ⟨t, p, resolution, hp, hshift, hprecedence, hdeclared, rfl⟩
    exact ⟨t, p, ⟨hp, hshift⟩, resolution, ⟨hprecedence, hdeclared⟩, rfl⟩

theorem mem_reduceReduce {d : Diagnostic} : d ∈ e.reduceReduce ↔ ∃ x y,
    q.Ends g x ∧ q.Ends g y ∧ x.core.production < y.core.production ∧
      (∃ t, t ∈ x.lookahead ∧ t ∈ y.lookahead) ∧
      d = .reduceReduce q.id x.core y.core (x.lookahead ∩ y.lookahead) := by
  simp only [reduceReduce, List.mem_map, Prod.exists, e.mem_rivals]
  constructor
  · rintro ⟨x, y, ⟨hx, hy, hlt, ht⟩, rfl⟩
    exact ⟨x, y, hx, hy, hlt, ht, rfl⟩
  · rintro ⟨x, y, hx, hy, hlt, ht, rfl⟩
    exact ⟨x, y, ⟨hx, hy, hlt, ht⟩, rfl⟩

theorem mem_shiftReduce {d : Diagnostic} : d ∈ e.shiftReduce ↔ ∃ t p,
    q.Reduces g t p ∧ (q.transition? (.terminal t)).isSome = true ∧
      g.precedenceOn t = none ∧ g.precedenceOf p = none ∧
      d = .shiftReduce q.id (g.finalCore p) (q.expecting g t) t := by
  simp only [shiftReduce, unresolved, List.mem_map, Prod.exists, List.mem_filter, e.mem_meetings,
    Option.isNone_iff_eq_none, Grammar.resolution?_eq_none]
  constructor
  · rintro ⟨t, p, ⟨⟨hp, hshift⟩, hon, hof⟩, rfl⟩
    exact ⟨t, p, hp, hshift, hon, hof, rfl⟩
  · rintro ⟨t, p, hp, hshift, hon, hof, rfl⟩
    exact ⟨t, p, ⟨⟨hp, hshift⟩, hon, hof⟩, rfl⟩

theorem mem_reports {d : Diagnostic} : d ∈ e.reports ↔ q.Reports g d := by
  rw [reports, List.mem_append, List.mem_append, mem_resolved, mem_reduceReduce, mem_shiftReduce]
  constructor
  · rintro ((⟨t, p, resolution, hp, hshift, hprecedence, hdeclared, rfl⟩ |
      ⟨x, y, hx, hy, hlt, ht, rfl⟩) | ⟨t, p, hp, hshift, hon, hof, rfl⟩)
    · exact .resolved hp hshift hprecedence hdeclared
    · exact .reduceReduce hx hy hlt ht
    · exact .shiftReduce hp hshift hon hof
  · intro h
    cases h with
    | resolved hp hshift hprecedence hdeclared =>
        exact .inl (.inl ⟨_, _, _, hp, hshift, hprecedence, hdeclared, rfl⟩)
    | reduceReduce hx hy hlt ht => exact .inl (.inr ⟨_, _, hx, hy, hlt, ht, rfl⟩)
    | shiftReduce hp hshift hon hof => exact .inr ⟨_, _, hp, hshift, hon, hof, rfl⟩

theorem nodup_resolved : e.resolved.Nodup := by
  have hmeetings := e.nodup_meetings
  rw [List.Nodup, List.pairwise_map] at hmeetings
  rw [resolved, List.Nodup, List.pairwise_filterMap]
  refine hmeetings.imp ?_
  rintro ⟨t, p⟩ ⟨t', p'⟩ hne d hd d' hd' rfl
  obtain ⟨resolution, -, rfl⟩ := Option.map_eq_some_iff.mp hd
  obtain ⟨resolution', -, heq⟩ := Option.map_eq_some_iff.mp hd'
  cases heq
  exact hne rfl

theorem nodup_reduceReduce : e.reduceReduce.Nodup := by
  refine (List.nodup_map_iff_inj_on e.nodup_rivals).mpr ?_
  rintro ⟨x, y⟩ hxy ⟨x', y'⟩ hxy' heq
  obtain ⟨hx, hy, -⟩ := e.mem_rivals.mp hxy
  obtain ⟨hx', hy', -⟩ := e.mem_rivals.mp hxy'
  injection heq with _ hfirst hsecond
  rw [ItemSet.core_inj hx.1 hx'.1 hfirst, ItemSet.core_inj hy.1 hy'.1 hsecond]

theorem nodup_shiftReduce : e.shiftReduce.Nodup := by
  have hmeetings := e.nodup_meetings
  rw [List.Nodup, List.pairwise_map] at hmeetings
  rw [shiftReduce, List.Nodup, List.pairwise_map]
  refine (hmeetings.filter _).imp ?_
  rintro ⟨t, p⟩ ⟨t', p'⟩ hne heq
  injection heq with _ _ _ hterminal
  exact hne hterminal

theorem nodup_reports : e.reports.Nodup := by
  refine List.nodup_append.mpr ⟨List.nodup_append.mpr
    ⟨e.nodup_resolved, e.nodup_reduceReduce, ?_⟩, e.nodup_shiftReduce, ?_⟩
  · rintro d hd d' hd' rfl
    obtain ⟨t, p, resolution, -, -, -, -, rfl⟩ := e.mem_resolved.mp hd
    obtain ⟨x, y, -, -, -, -, heq⟩ := e.mem_reduceReduce.mp hd'
    cases heq
  · rintro d hd d' hd' rfl
    obtain ⟨t, p, -, -, -, -, rfl⟩ := e.mem_shiftReduce.mp hd'
    rcases List.mem_append.mp hd with hd | hd
    · obtain ⟨t, p, resolution, -, -, -, -, heq⟩ := e.mem_resolved.mp hd
      cases heq
    · obtain ⟨x, y, -, -, -, -, heq⟩ := e.mem_reduceReduce.mp hd
      cases heq

theorem countP_reports {kind : Diagnostic → Bool} {a b c : Bool}
    (ha : ∀ d ∈ e.resolved, kind d = a) (hb : ∀ d ∈ e.reduceReduce, kind d = b)
    (hc : ∀ d ∈ e.shiftReduce, kind d = c) :
    e.reports.countP kind = (if a then e.resolved.length else 0) +
      (if b then e.rivals.length else 0) + if c then e.unresolved.length else 0 := by
  have hcount : ∀ {ds : List Diagnostic} {b : Bool}, (∀ d ∈ ds, kind d = b) →
      ds.countP kind = if b then ds.length else 0 := by
    intro ds b h
    cases b with
    | true => exact List.countP_eq_length.mpr h
    | false => exact List.countP_eq_zero.mpr fun d hd => Bool.not_eq_true _ ▸ h d hd
  rw [reports, List.countP_append, List.countP_append, hcount ha, hcount hb, hcount hc,
    reduceReduce, shiftReduce, List.length_map, List.length_map]

theorem kind_resolved {d : Diagnostic} (h : d ∈ e.resolved) :
    d.isResolved = true ∧ d.isReduceReduce = false ∧ d.isConflict = false := by
  obtain ⟨t, p, resolution, -, -, -, -, rfl⟩ := e.mem_resolved.mp h
  exact ⟨rfl, rfl, rfl⟩

theorem kind_reduceReduce {d : Diagnostic} (h : d ∈ e.reduceReduce) :
    d.isResolved = false ∧ d.isReduceReduce = true ∧ d.isConflict = true := by
  obtain ⟨x, y, -, -, -, -, rfl⟩ := e.mem_reduceReduce.mp h
  exact ⟨rfl, rfl, rfl⟩

theorem kind_shiftReduce {d : Diagnostic} (h : d ∈ e.shiftReduce) :
    d.isResolved = false ∧ d.isReduceReduce = false ∧ d.isConflict = true := by
  obtain ⟨t, p, -, -, -, -, rfl⟩ := e.mem_shiftReduce.mp h
  exact ⟨rfl, rfl, rfl⟩

theorem countP_isResolved : e.reports.countP (·.isResolved) = e.counts.resolved :=
  e.countP_reports (fun _ h => (e.kind_resolved h).1) (fun _ h => (e.kind_reduceReduce h).1)
    fun _ h => (e.kind_shiftReduce h).1

theorem countP_isReduceReduce : e.reports.countP (·.isReduceReduce) = e.counts.reduceReduce := by
  rw [e.countP_reports (fun _ h => (e.kind_resolved h).2.1)
    (fun _ h => (e.kind_reduceReduce h).2.1) fun _ h => (e.kind_shiftReduce h).2.1]
  exact Nat.zero_add _

theorem countP_isConflict : e.reports.countP (·.isConflict) = e.counts.conflicts := by
  rw [e.countP_reports (fun _ h => (e.kind_resolved h).2.2)
    (fun _ h => (e.kind_reduceReduce h).2.2) fun _ h => (e.kind_shiftReduce h).2.2]
  exact congrArg (· + _) (Nat.zero_add _)

end Encounters

end State

/-- What was counted and reported of some states: the numbers are those of the conflicts that the
states have, and each conflict has one report. -/
structure Tallied (g : Grammar) (states : List State) (counts : ConflictCounts)
    (reports : List Diagnostic) : Prop where
  shiftReduce :
    {x : State × TerminalId | x.1 ∈ states ∧ x.1.Disputes g x.2}.encard = counts.shiftReduce
  resolved : {x : State × TerminalId | x.1 ∈ states ∧ x.1.Decides g x.2}.encard = counts.resolved
  reduceReduce :
    {x : State × Sym2 Item | x.1 ∈ states ∧ x.1.Rivals g x.2}.encard = counts.reduceReduce
  conflicts : counts.conflicts + counts.resolved = counts.reduceReduce + counts.shiftReduce
  countP_resolved : reports.countP (·.isResolved) = counts.resolved
  countP_reduceReduce : reports.countP (·.isReduceReduce) = counts.reduceReduce
  countP_conflict : reports.countP (·.isConflict) = counts.conflicts
  nodup_reports : reports.Nodup
  mem_reports : ∀ {d}, d ∈ reports ↔ ∃ q ∈ states, q.Reports g d

namespace Tallied

theorem nil : Tallied g [] {} [] := by
  constructor <;> simp

theorem cons {q : State} {states : List State} {counts : ConflictCounts}
    {reports : List Diagnostic} (hq : q.Grounded g) (e : q.Encounters g)
    (hid : q.id ∉ states.map (·.id)) (h : Tallied g states counts reports) :
    Tallied g (q :: states) (e.counts.add counts) (e.reports ++ reports) := by
  have hnot : q ∉ states := fun hmem => hid (List.mem_map_of_mem hmem)
  refine ⟨?_, ?_, ?_, ?_, ?_, ?_, ?_, ?_, ?_⟩
  · rw [encard_pairs_cons hnot, e.encard_disputes, h.shiftReduce]
    rfl
  · rw [encard_pairs_cons hnot, e.encard_decides, h.resolved]
    rfl
  · rw [encard_pairs_cons hnot, e.encard_rivals hq, h.reduceReduce]
    rfl
  · have hconflicts := h.conflicts
    simp only [ConflictCounts.add, State.Encounters.counts]
    omega
  · rw [List.countP_append, e.countP_isResolved, h.countP_resolved]
    rfl
  · rw [List.countP_append, e.countP_isReduceReduce, h.countP_reduceReduce]
    rfl
  · rw [List.countP_append, e.countP_isConflict, h.countP_conflict]
    rfl
  · refine List.nodup_append.mpr ⟨e.nodup_reports, h.nodup_reports, ?_⟩
    rintro d hd d' hd' rfl
    obtain ⟨q', hq', hreports⟩ := h.mem_reports.mp hd'
    have hsame := (e.mem_reports.mp hd).state?_eq.symm.trans hreports.state?_eq
    exact hid (Option.some.inj hsame ▸ List.mem_map_of_mem hq')
  · intro d
    rw [List.mem_append, e.mem_reports, h.mem_reports]
    simp

end Tallied

namespace Diagnostics

theorem entries_report (d : Diagnostics) (entry : Diagnostic) :
    (d.report entry).entries = d.entries.push entry := by
  unfold report
  split <;> rfl

theorem toList_entries_reportAll (d : Diagnostics) (reports : List Diagnostic) :
    (DiagnosticSink.reportAll d reports).entries.toList = d.entries.toList ++ reports := by
  induction reports generalizing d with
  | nil => exact (List.append_nil _).symm
  | cons entry reports ih =>
      have hrest := ih (d.report entry)
      rw [entries_report, Array.toList_push, List.append_assoc] at hrest
      exact hrest

end Diagnostics

namespace ConflictCounts

theorem add_assoc (a b c : ConflictCounts) : (a.add b).add c = a.add (b.add c) := by
  simp only [add, Nat.add_assoc]

theorem zero_add (a : ConflictCounts) : add {} a = a := by
  simp only [add, Nat.zero_add]

end ConflictCounts

namespace Tables

theorem tallied_addStates {states : List State} (h : ∀ q ∈ states, q.Grounded g)
    (hid : (states.map (·.id)).Nodup) (tables : Tables) (sink : Diagnostics) :
    ∃ tables' counts reports,
      addStates g tables sink states = ⟨.ok tables', DiagnosticSink.reportAll sink reports⟩ ∧
        tables'.counts = tables.counts.add counts ∧ Tallied g states counts reports := by
  induction states generalizing tables sink with
  | nil => exact ⟨tables, {}, [], rfl, rfl, .nil⟩
  | cons q states ih =>
      obtain ⟨hfresh, hrest⟩ := List.nodup_cons.mp hid
      have hq := h q List.mem_cons_self
      obtain ⟨e, row, gotos, htabulate⟩ := hq.exists_encounters
      obtain ⟨tables', counts, reports, hadd, hcounts, htallied⟩ :=
        ih (fun q hq => h q (List.mem_cons_of_mem _ hq)) hrest
          ⟨⟨tables.actions.rows.push row⟩, ⟨tables.gotos.rows.push gotos⟩,
            tables.counts.add e.counts⟩ (DiagnosticSink.reportAll sink e.reports)
      refine ⟨tables', e.counts.add counts, e.reports ++ reports, ?_, ?_,
        htallied.cons hq e hfresh⟩
      · rw [addStates, htabulate, DiagnosticSink.reportAll, List.foldl_append]
        exact hadd
      · rw [hcounts, ConflictCounts.add_assoc]

/-- What was counted and reported while the tables were filled: the numbers are those of the
conflicts, each conflict has one report, and the cells hold what the reports say. -/
structure Reported (g : Grammar) (a : Automaton) (tables : Tables)
    (reports : List Diagnostic) : Prop where
  tallied : Tallied g a.states.toList tables.counts reports
  reduceReduce : ∀ {s x y common}, .reduceReduce s x y common ∈ reports →
    x.production < y.production ∧ ∀ t ∈ common, ∃ action,
      tables.actions.get? s t = some action ∧ action ≠ .reduce y.production
  shiftReduce : ∀ {s x shifts t}, .shiftReduce s x shifts t ∈ reports →
    ∃ q ∈ a.states, q.id = s ∧ ∃ next, q.transition? (.terminal t) = some next ∧
      tables.actions.get? s t = some (.shift next)
  resolved : ∀ {s p t resolution}, .resolved s p t resolution ∈ reports →
    ∃ q ∈ a.states, q.id = s ∧ ∃ next, q.transition? (.terminal t) = some next ∧
      tables.actions.get? s t = some (resolution.action next p)

theorem Resolved.reported {a : Automaton} {tables : Tables} (htables : tables.Resolved g a)
    (ha : ∀ q ∈ a.states, q.Grounded g) {reports : List Diagnostic}
    (htallied : Tallied g a.states.toList tables.counts reports) :
    tables.Reported g a reports := by
  have hreports : ∀ {d}, d ∈ reports → ∃ q ∈ a.states, q.Reports g d := by
    intro d hd
    obtain ⟨q, hq, h⟩ := htallied.mem_reports.mp hd
    exact ⟨q, Array.mem_toList_iff.mp hq, h⟩
  -- A shift that meets a reduction leaves what is declared of the two.
  have hboth : ∀ {q}, q ∈ a.states → ∀ {t p resolution}, q.Reduces g t p →
      (q.transition? (.terminal t)).isSome = true →
      Resolution.Declared (g.precedenceOn t) (g.precedenceOf p) resolution →
      ∃ next, q.transition? (.terminal t) = some next ∧
        tables.actions.get? q.id t = some (resolution.action next p) := by
    intro q hq t p resolution hp hshift hdeclared
    obtain ⟨next, hnext⟩ := Option.isSome_iff_exists.mp hshift
    have hknows := (ha q hq).transition _ next
      ((State.transition?_eq_some (ha q hq).nodup).mp hnext)
    exact ⟨next, hnext, (htables.action q hq t hknows _).mpr (.both hp hnext hdeclared)⟩
  refine ⟨htallied, ?_, ?_, ?_⟩
  · intro s x y common hd
    obtain ⟨q, hq, h⟩ := hreports hd
    cases h with
    | @reduceReduce x y hx hy hlt hcommon =>
        refine ⟨hlt, fun t ht => ?_⟩
        obtain ⟨htx, hty⟩ := IdentSet.mem_inter.mp ht
        have hknows := (ha q hq).lookahead x hx.1 t htx
        obtain ⟨action, haction⟩ := State.exists_resolves g q t
        exact ⟨action, (htables.action q hq t hknows action).mpr haction,
          haction.ne_reduce ⟨x, hx.1, rfl, hx.2, htx⟩ hlt⟩
  · intro s x shifts t hd
    obtain ⟨q, hq, h⟩ := hreports hd
    cases h with
    | @shiftReduce _ p hp hshift hon hof =>
        have hdeclared : Resolution.Declared (g.precedenceOn t) (g.precedenceOf p) .shift := by
          rw [hon, hof]
          exact .neither
        exact ⟨q, hq, rfl, hboth hq hp hshift hdeclared⟩
  · intro s p t resolution hd
    obtain ⟨q, hq, h⟩ := hreports hd
    cases h with
    | resolved hp hshift _ hdeclared => exact ⟨q, hq, rfl, hboth hq hp hshift hdeclared⟩

/-- Reports and numbers tell the conflicts of the automaton, and the tables are as reported. -/
theorem reported_of_build {declarations : List Declaration} {a : Automaton}
    (hg : Grammar.define declarations = .ok g) (ha : Automaton.build g = .ok a)
    (sink : Diagnostics) :
    ∃ tables sink' reports, build g a sink = ⟨.ok tables, sink'⟩ ∧
      sink'.entries.toList = sink.entries.toList ++ reports ∧ tables.Reported g a reports := by
  have hwell := Grammar.wellFormed_of_define hg
  have hexact := Automaton.exact_of_build hwell ha
  have hgrounded : ∀ q ∈ a.states, q.Grounded g := fun q hq =>
    hexact.grounded hwell (Grammar.closed_of_define hg) hq
  have hplaces : InPlace (·.id.index) a.states := fun _ _ => hexact.id
  have hids : (a.states.toList.map (·.id)).Nodup :=
    List.pairwise_map.mpr <| hplaces.pairwise.imp fun hlt heq =>
      Nat.ne_of_lt hlt (congrArg Ident.index heq)
  obtain ⟨tables, sink', hbuild, hresolved⟩ := resolved_of_build hg ha sink
  obtain ⟨tables', counts, reports, hbuild', hcounts, htallied⟩ :=
    tallied_addStates (fun q hq => hgrounded q (Array.mem_toList_iff.mp hq))
      hids empty sink
  rw [build, fill, hbuild'] at hbuild
  cases hbuild
  rw [empty, ConflictCounts.zero_add] at hcounts
  exact ⟨tables, _, reports, hbuild', sink.toList_entries_reportAll reports,
    hresolved.reported hgrounded (hcounts ▸ htallied)⟩

/-- Sums and products, where only products have a precedence and `x` can be read in two ways. -/
def sumsAndProducts : List Declaration :=
  [.terminal "x" none, .terminal "+" none, .terminal "*" (some ⟨1, .left⟩), .nonterminal "E",
    .nonterminal "F", .rule (.nth 1) [.nonterminal 1, .terminal 3, .nonterminal 1] none,
    .rule (.nth 1) [.nonterminal 1, .terminal 4, .nonterminal 1] none,
    .rule (.nth 1) [.terminal 2] none, .rule (.nth 1) [.nonterminal 2] none,
    .rule (.nth 2) [.terminal 2] none]

/-- A sum may go on in two ways, one of them open; so may a product, both of them settled; and the
two readings of `x` compete. -/
theorem reported_of_build_sumsAndProducts :
    ∃ g a tables sink' reports, Grammar.define sumsAndProducts = .ok g ∧
      Automaton.build g = .ok a ∧ build g a ∅ = ⟨.ok tables, sink'⟩ ∧
      sink'.entries.toList = reports ∧ tables.Reported g a reports ∧
      reports.countP (·.isConflict) = 2 ∧
      {x : State × TerminalId | x.1 ∈ a.states.toList ∧ x.1.Disputes g x.2}.encard = 4 ∧
      {x : State × TerminalId | x.1 ∈ a.states.toList ∧ x.1.Decides g x.2}.encard = 3 ∧
      {x : State × Sym2 Item | x.1 ∈ a.states.toList ∧ x.1.Rivals g x.2}.encard = 1 := by
  have hrun : (Automaton.ofDeclarations sumsAndProducts).any (fun (g, a) =>
      ∃ tables ∈ (build g a ∅).outcome.toOption, tables.counts = ⟨2, 4, 1, 3⟩) = true := by
    decide +kernel
  obtain ⟨⟨g, a⟩, hbuilt, hchecks⟩ := (Option.any_eq_true _ _).mp hrun
  obtain ⟨hg, ha⟩ := Automaton.ofDeclarations_eq_some hbuilt
  obtain ⟨tables, sink', reports, hbuild, hentries, hreported⟩ := reported_of_build hg ha ∅
  simp only [hbuild, Except.toOption, Option.mem_def, Option.some.injEq, exists_eq_left',
    decide_eq_true_eq] at hchecks
  have htallied := hreported.tallied
  rw [hchecks] at htallied
  exact ⟨g, a, tables, sink', reports, hg, ha, hbuild, hentries, hreported,
    htallied.countP_conflict, htallied.shiftReduce, htallied.resolved, htallied.reduceReduce⟩

end Tables

end Lalr
