import Lalr.Table.Action

namespace Lalr

variable {actions : List Action} {action : Action} {p q : ProductionId} {m i : Nat}

def frequency (actions : List Action) (p : ProductionId) : Nat :=
  actions.count (.reduce p)

theorem frequency_append_self (actions : List Action) (p : ProductionId) :
    frequency (actions ++ [.reduce p]) p = frequency actions p + 1 := by
  rw [frequency, List.count_append, List.count_singleton_self]
  rfl

theorem frequency_append_of_ne (actions : List Action) (h : action ≠ .reduce p) :
    frequency (actions ++ [action]) p = frequency actions p := by
  rw [frequency, List.count_append, List.count_singleton, beq_eq_false_iff_ne.mpr h]
  rfl

/-- Action number `i` is the `m`th that reduces by `p`. -/
def NthReduction (actions : List Action) (p : ProductionId) (m i : Nat) : Prop :=
  actions[i]? = some (.reduce p) ∧ frequency (actions.take (i + 1)) p = m

theorem NthReduction.lt (h : NthReduction actions p m i) : i < actions.length :=
  (List.getElem?_eq_some_iff.mp h.1).1

theorem NthReduction.le_frequency (h : NthReduction actions p m i) : m ≤ frequency actions p := by
  rw [← h.2]
  exact (List.take_sublist _ _).count_le _

theorem NthReduction.append (h : NthReduction actions p m i) (action : Action) :
    NthReduction (actions ++ [action]) p m i := by
  refine ⟨?_, ?_⟩
  · rw [List.getElem?_append_left h.lt]
    exact h.1
  · rw [List.take_append_of_le_length h.lt]
    exact h.2

theorem NthReduction.of_append (h : NthReduction (actions ++ [action]) p m i) :
    NthReduction actions p m i ∨ i = actions.length ∧ action = .reduce p := by
  rcases Nat.lt_or_ge i actions.length with hlt | hge
  · refine .inl ⟨?_, ?_⟩
    · rw [← h.1, List.getElem?_append_left hlt]
    · rw [← h.2, List.take_append_of_le_length hlt]
  · have hi := h.lt
    rw [List.length_append, List.length_singleton] at hi
    obtain rfl : i = actions.length := by omega
    have hlast := h.1
    rw [List.getElem?_concat_length] at hlast
    exact .inr ⟨rfl, Option.some.inj hlast⟩

theorem nthReduction_last (actions : List Action) (p : ProductionId) :
    NthReduction (actions ++ [.reduce p]) p (frequency actions p + 1) actions.length := by
  refine ⟨List.getElem?_concat_length, ?_⟩
  rw [List.take_of_length_le (by simp), frequency_append_self]

/-- No production is reduced by more often than `p`, and those that are reduced by as often come to
that number later. -/
structure Leads (actions : List Action) (p : ProductionId) : Prop where
  most : ∀ q, frequency actions q ≤ frequency actions p
  first : ∃ i, NthReduction actions p (frequency actions p) i ∧
    ∀ q ≠ p, ∀ j, NthReduction actions q (frequency actions p) j → i < j

namespace Leads

theorem mem (h : Leads actions p) : .reduce p ∈ actions := by
  obtain ⟨i, hi, -⟩ := h.first
  exact List.mem_of_getElem? hi.1

theorem unique (hp : Leads actions p) (hq : Leads actions q) : p = q := by
  have hsame := Nat.le_antisymm (hq.most p) (hp.most q)
  obtain ⟨i, hi, hfirst⟩ := hp.first
  obtain ⟨j, hj, hfirst'⟩ := hq.first
  false_or_by_contra
  rename_i hne
  have hij := hfirst q (Ne.symm hne) j (hsame ▸ hj)
  have hji := hfirst' p hne i (hsame ▸ hi)
  omega

/-- What has caught up with all others takes the lead when it is seen once more. -/
theorem of_caughtUp (h : ∀ q, frequency actions q ≤ frequency actions p) :
    Leads (actions ++ [.reduce p]) p := by
  have hself := frequency_append_self actions p
  have hother : ∀ q ≠ p, Action.reduce p ≠ .reduce q :=
    fun q hq e => hq (Action.reduce.inj e).symm
  refine ⟨fun q => ?_, actions.length, hself ▸ nthReduction_last actions p, fun q hq j hj => ?_⟩
  · by_cases hq : q = p
    · exact Nat.le_of_eq (hq ▸ rfl)
    · rw [hself, frequency_append_of_ne actions (hother q hq)]
      exact Nat.le_succ_of_le (h q)
  · rw [hself] at hj
    rcases hj.of_append with hj | ⟨-, hj⟩
    · have := hj.le_frequency
      have := h q
      omega
    · exact absurd hj (hother q hq)

theorem append (h : Leads actions p) (hne : action ≠ .reduce p)
    (hmost : ∀ q, frequency (actions ++ [action]) q ≤ frequency actions p) :
    Leads (actions ++ [action]) p := by
  obtain ⟨i, hi, hfirst⟩ := h.first
  have hsame := frequency_append_of_ne actions hne
  refine ⟨hsame ▸ hmost, i, hsame ▸ hi.append action, fun q hq j hj => ?_⟩
  rw [hsame] at hj
  rcases hj.of_append with hj | ⟨rfl, -⟩
  · exact hfirst q hq j hj
  · exact hi.lt

end Leads

namespace Tally

variable {tally : Tally}

structure Counts (actions : List Action) (tally : Tally) : Prop where
  counts : ∀ p : ProductionId, tally.counts.getD p.index 0 = frequency actions p
  le_most : ∀ p, frequency actions p ≤ tally.most
  leader : ∀ p, tally.leader = some p → Leads actions p ∧ frequency actions p = tally.most
  most_of_none : tally.leader = none → tally.most = 0

theorem counts_empty : Counts [] empty :=
  ⟨fun _ => rfl, fun _ => Nat.le_refl 0, nofun, fun _ => rfl⟩

theorem Counts.getD_add (h : Counts actions tally) (p q : ProductionId) :
    (tally.add p).counts.getD q.index 0 = frequency (actions ++ [.reduce p]) q := by
  simp only [Tally.add, Std.TreeMap.getD_insert, h.counts]
  by_cases hq : p = q
  · subst hq
    simp [frequency_append_self]
  · have hindex : p.index ≠ q.index := fun e => hq (Ident.ext_index e)
    rw [frequency_append_of_ne actions fun e => hq (Action.reduce.inj e)]
    simp [hindex]

theorem Counts.add (h : Counts actions tally) (p : ProductionId) :
    Counts (actions ++ [.reduce p]) (tally.add p) := by
  have hle_most : ∀ q, frequency (actions ++ [.reduce p]) q ≤
      max tally.most (frequency actions p + 1) := by
    intro q
    by_cases hq : p = q
    · rw [← hq, frequency_append_self]
      exact Nat.le_max_right _ _
    · rw [frequency_append_of_ne actions fun e => hq (Action.reduce.inj e)]
      exact Nat.le_trans (h.le_most q) (Nat.le_max_left _ _)
  by_cases hlead : tally.most < frequency actions p + 1
  · have hmost : (tally.add p).most = frequency actions p + 1 := by
      simp only [Tally.add, h.counts, if_pos hlead]
    have hleader : (tally.add p).leader = some p := by
      simp only [Tally.add, h.counts, if_pos hlead]
    rw [Nat.max_eq_right (Nat.le_of_lt hlead), ← hmost] at hle_most
    refine ⟨h.getD_add p, hle_most, fun l hl => ?_, fun hnone => ?_⟩
    · obtain rfl : p = l := Option.some.inj (hleader.symm.trans hl)
      refine ⟨.of_caughtUp fun q => ?_, by rw [frequency_append_self, hmost]⟩
      exact Nat.le_trans (h.le_most q) (Nat.le_of_lt_succ hlead)
    · rw [hleader] at hnone
      cases hnone
  · have hmost : (tally.add p).most = tally.most := by
      simp only [Tally.add, h.counts, if_neg hlead]
    have hleader : (tally.add p).leader = tally.leader := by
      simp only [Tally.add, h.counts, if_neg hlead]
    rw [Nat.max_eq_left (Nat.not_lt.mp hlead)] at hle_most
    refine ⟨h.getD_add p, hmost ▸ hle_most, fun l hl => ?_, fun hnone => ?_⟩
    · obtain ⟨hleads, hfrequency⟩ := h.leader l (hleader ▸ hl)
      have hne : Action.reduce p ≠ .reduce l := by
        intro e
        rw [Action.reduce.inj e, hfrequency] at hlead
        exact hlead (Nat.lt_succ_self _)
      refine ⟨hleads.append hne (hfrequency ▸ hle_most), ?_⟩
      rw [frequency_append_of_ne actions hne, hfrequency, hmost]
    · rw [hmost]
      exact h.most_of_none (hleader ▸ hnone)

theorem Counts.addAction (h : Counts actions tally) (action : Action) :
    Counts (actions ++ [action]) (tally.addAction action) := by
  have hskip : (∀ p, action ≠ .reduce p) → Counts (actions ++ [action]) tally := by
    intro hne
    have hsame : ∀ p, frequency (actions ++ [action]) p = frequency actions p :=
      fun p => frequency_append_of_ne actions (hne p)
    refine ⟨fun p => hsame p ▸ h.counts p, fun p => hsame p ▸ h.le_most p, fun l hl => ?_,
      h.most_of_none⟩
    obtain ⟨hleads, hfrequency⟩ := h.leader l hl
    exact ⟨hleads.append (hne l) fun q => hsame q ▸ hleads.most q, hsame l ▸ hfrequency⟩
  cases action with
  | error => exact hskip nofun
  | shift next => exact hskip nofun
  | reduce p => exact h.add p
  | nonassoc => exact hskip nofun

theorem Counts.foldl (h : Counts actions tally) (later : List Action) :
    Counts (actions ++ later) (later.foldl Tally.addAction tally) := by
  induction later generalizing actions tally with
  | nil => rwa [List.append_nil]
  | cons action later ih =>
      rw [List.append_cons]
      exact ih (h.addAction action)

end Tally

namespace ActionRow

theorem mostFrequent_cases (row : ActionRow) :
    (∃ p, row.mostFrequent = some p ∧ Leads row.cells.toList p) ∨
      row.mostFrequent = none ∧ ∀ p, .reduce p ∉ row.cells := by
  have hcounts := Tally.counts_empty.foldl row.cells.toList
  rw [Array.foldl_toList] at hcounts
  cases hleader : row.mostFrequent with
  | some p => exact .inl ⟨p, rfl, (hcounts.leader p hleader).1⟩
  | none =>
      refine .inr ⟨rfl, fun p hp => ?_⟩
      have hzero := hcounts.le_most p
      rw [hcounts.most_of_none hleader, Nat.le_zero, frequency, List.count_eq_zero] at hzero
      exact hzero (Array.mem_toList_iff.mpr hp)

theorem mostFrequent_eq_some {row : ActionRow} {p : ProductionId} :
    row.mostFrequent = some p ↔ Leads row.cells.toList p := by
  rcases mostFrequent_cases row with ⟨q, hq, hleads⟩ | ⟨hnone, hno⟩
  · rw [hq, Option.some.injEq]
    constructor
    · rintro rfl
      exact hleads
    · exact hleads.unique
  · rw [hnone]
    exact ⟨nofun, fun hleads => absurd (Array.mem_toList_iff.mp hleads.mem) (hno p)⟩

theorem mostFrequent_eq_none {row : ActionRow} :
    row.mostFrequent = none ↔ ∀ p, .reduce p ∉ row.cells := by
  rcases mostFrequent_cases row with ⟨q, hq, hleads⟩ | ⟨hnone, hno⟩
  · rw [hq]
    exact ⟨nofun, fun hno => absurd (Array.mem_toList_iff.mp hleads.mem) (hno q)⟩
  · exact iff_of_true hnone hno

/-- Compacting changes nothing but the default of a row.  This becomes the leading reduction, if
there is any reduction at all. -/
theorem leads_of_compact (row : ActionRow) :
    row.compact.cells = row.cells ∧
      (row.compact.default = none ↔ ∀ p, .reduce p ∉ row.cells) ∧
      ∀ p, row.compact.default = some p ↔ Leads row.cells.toList p :=
  ⟨rfl, mostFrequent_eq_none, fun _ => mostFrequent_eq_some⟩

example : mostFrequent ⟨#[.reduce { index := 3 }, .error, .reduce { index := 2 },
    .reduce { index := 2 }, .nonassoc, .reduce { index := 3 }], none⟩ = some { index := 2 } := by
  decide +kernel

end ActionRow

end Lalr
