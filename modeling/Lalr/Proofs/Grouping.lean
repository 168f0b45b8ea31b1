import Lalr.Proofs.Levels

namespace Lalr

section Split

variable {α : Type}

def splitFirst (p : α → Bool) : List α → Option (List α × α × List α)
  | [] => none
  | a :: as =>
    if p a then some ([], a, as)
    else (splitFirst p as).map fun (left, b, right) => (a :: left, b, right)

def splitLast (p : α → Bool) : List α → Option (List α × α × List α)
  | [] => none
  | a :: as =>
    match splitLast p as with
    | some (left, b, right) => some (a :: left, b, right)
    | none => if p a then some ([], a, as) else none

def splitOnly (p : α → Bool) (as : List α) : Option (List α × α × List α) :=
  (splitFirst p as).filter fun (_, _, right) => !right.any p

variable {p : α → Bool} {as left right : List α} {a : α}

theorem splitFirst_eq_none (h : splitFirst p as = none) : ∀ a ∈ as, p a = false := by
  induction as with
  | nil => simp
  | cons b as ih =>
      unfold splitFirst at h
      split at h
      · cases h
      · rename_i hb
        exact List.forall_mem_cons.mpr ⟨by simpa using hb, ih (Option.map_eq_none_iff.mp h)⟩

theorem splitFirst_eq_some (h : splitFirst p as = some (left, a, right)) :
    as = left ++ a :: right ∧ p a = true ∧ ∀ b ∈ left, p b = false := by
  induction as generalizing left with
  | nil => cases h
  | cons b as ih =>
      unfold splitFirst at h
      split at h
      · rename_i hb
        cases h
        exact ⟨rfl, hb, by simp⟩
      · rename_i hb
        obtain ⟨⟨left, c, behind⟩, hrest, heq⟩ := Option.map_eq_some_iff.mp h
        cases heq
        obtain ⟨rfl, hp, hleft⟩ := ih hrest
        exact ⟨rfl, hp, List.forall_mem_cons.mpr ⟨by simpa using hb, hleft⟩⟩

theorem splitLast_eq_none (h : splitLast p as = none) : ∀ a ∈ as, p a = false := by
  induction as with
  | nil => simp
  | cons b as ih =>
      unfold splitLast at h
      split at h
      · cases h
      · rename_i hrest
        split at h
        · cases h
        · rename_i hb
          exact List.forall_mem_cons.mpr ⟨by simpa using hb, ih hrest⟩

theorem splitLast_eq_some (h : splitLast p as = some (left, a, right)) :
    as = left ++ a :: right ∧ p a = true ∧ ∀ b ∈ right, p b = false := by
  induction as generalizing left with
  | nil => cases h
  | cons b as ih =>
      unfold splitLast at h
      split at h
      · rename_i hrest
        cases h
        obtain ⟨rfl, hp, hright⟩ := ih hrest
        exact ⟨rfl, hp, hright⟩
      · rename_i hrest
        split at h
        · rename_i hb
          cases h
          exact ⟨rfl, hb, splitLast_eq_none hrest⟩
        · cases h

theorem splitOnly_eq_some (h : splitOnly p as = some (left, a, right)) :
    as = left ++ a :: right ∧ p a = true ∧ (∀ b ∈ left, p b = false) ∧
      ∀ b ∈ right, p b = false := by
  obtain ⟨hfirst, hright⟩ := Option.filter_eq_some_iff.mp h
  obtain ⟨rfl, hp, hleft⟩ := splitFirst_eq_some hfirst
  exact ⟨rfl, hp, hleft, by simpa using hright⟩

theorem splitOnly_eq_none (h : splitOnly p as = none) : (∀ a ∈ as, p a = false) ∨
    ∃ left a middle b right, as = left ++ a :: (middle ++ b :: right) ∧ p a = true ∧ p b = true ∧
      (∀ c ∈ left, p c = false) ∧ ∀ c ∈ middle, p c = false := by
  rcases hfirst : splitFirst p as with _ | ⟨left, a, rest⟩
  · exact .inl (splitFirst_eq_none hfirst)
  · obtain ⟨rfl, ha, hleft⟩ := splitFirst_eq_some hfirst
    rcases hsecond : splitFirst p rest with _ | ⟨middle, b, right⟩
    · have hnone := splitFirst_eq_none hsecond
      rw [splitOnly, hfirst, Option.filter_some, if_pos (by simpa using hnone)] at h
      cases h
    · obtain ⟨rfl, hb, hmiddle⟩ := splitFirst_eq_some hsecond
      exact .inr ⟨left, a, middle, b, right, rfl, ha, hb, hleft, hmiddle⟩

end Split

inductive Expression where
  | atom
  | apply (left : Expression) (operator : TerminalId) (right : Expression)

namespace Expression

def tree (x : TerminalId) (atom : ProductionId) (rule : TerminalId → ProductionId) :
    Expression → ParseTree
  | .atom => .node atom [.token x]
  | .apply left operator right =>
    .node (rule operator) [left.tree x atom rule, .token operator, right.tree x atom rule]

end Expression

/-- The input in which the given operators stand between atoms. -/
def interspersed (x : TerminalId) : List TerminalId → List TerminalId
  | [] => [x]
  | o :: os => x :: o :: interspersed x os

theorem interspersed_append (x : TerminalId) (left : List TerminalId) (o : TerminalId)
    (right : List TerminalId) :
    interspersed x (left ++ o :: right) = interspersed x left ++ o :: interspersed x right := by
  induction left with
  | nil => rfl
  | cons first left ih => simp [interspersed, ih]

namespace Level

/-- Where a level splits the operators of a chain: at its last occurrence, at its first, or at its
only one. -/
def split (level : Level) (os : List TerminalId) :
    Option (List TerminalId × TerminalId × List TerminalId) :=
  match level.associativity with
  | .left => splitLast (· ∈ level.terminals) os
  | .right => splitFirst (· ∈ level.terminals) os
  | .nonassoc => splitOnly (· ∈ level.terminals) os

variable {level : Level} {os left right : List TerminalId} {o : TerminalId}

/-- Behind the split a level occurs only if it is right associative, and before it only if it is
left associative. -/
theorem split_eq_some (h : level.split os = some (left, o, right)) :
    os = left ++ o :: right ∧ o ∈ level.terminals ∧
      (level.associativity = .left ∨ ∀ a ∈ left, a ∉ level.terminals) ∧
      (level.associativity = .right ∨ ∀ a ∈ right, a ∉ level.terminals) := by
  unfold split at h
  split at h
  · rename_i hleft
    obtain ⟨hos, ho, hright⟩ := splitLast_eq_some h
    exact ⟨hos, of_decide_eq_true ho, .inl hleft, .inr fun a ha => of_decide_eq_false (hright a ha)⟩
  · rename_i hright
    obtain ⟨hos, ho, hleft⟩ := splitFirst_eq_some h
    exact ⟨hos, of_decide_eq_true ho, .inr fun a ha => of_decide_eq_false (hleft a ha), .inl hright⟩
  · obtain ⟨hos, ho, hleft, hright⟩ := splitOnly_eq_some h
    exact ⟨hos, of_decide_eq_true ho, .inr fun a ha => of_decide_eq_false (hleft a ha),
      .inr fun a ha => of_decide_eq_false (hright a ha)⟩

theorem split_eq_none (h : level.split os = none) (hmem : ∃ o ∈ os, o ∈ level.terminals) :
    level.associativity = .nonassoc ∧ ∃ left a middle b right,
      os = left ++ a :: (middle ++ b :: right) ∧ a ∈ level.terminals ∧ b ∈ level.terminals ∧
      (∀ c ∈ left, c ∉ level.terminals) ∧ ∀ c ∈ middle, c ∉ level.terminals := by
  obtain ⟨o, ho, hlevel⟩ := hmem
  have hnot : ¬ ∀ a ∈ os, decide (a ∈ level.terminals) = false := fun hnone =>
    of_decide_eq_false (hnone o ho) hlevel
  unfold split at h
  split at h
  · exact absurd (splitLast_eq_none h) hnot
  · exact absurd (splitFirst_eq_none h) hnot
  · rename_i hnonassoc
    obtain ⟨left, a, middle, b, right, hos, ha, hb, hleft, hmiddle⟩ :=
      (splitOnly_eq_none h).resolve_left hnot
    exact ⟨hnonassoc, left, a, middle, b, right, hos, of_decide_eq_true ha, of_decide_eq_true hb,
      fun c hc => of_decide_eq_false (hleft c hc), fun c hc => of_decide_eq_false (hmiddle c hc)⟩

end Level

def lowest? (levels : List Level) (os : List TerminalId) : Option Level :=
  levels.find? fun level => os.any (· ∈ level.terminals)

/-- How levels group a chain of operators, unless an operator that is not associative is repeated
on its level. -/
def group? (levels : List Level) (os : List TerminalId) : Option Expression :=
  match os with
  | [] => some .atom
  | first :: rest =>
    match lowest? levels (first :: rest) with
    | none => none
    | some level =>
      match _h : level.split (first :: rest) with
      | none => none
      | some (left, o, right) =>
        (group? levels left).bind fun l => (group? levels right).map fun r => .apply l o r
termination_by os.length
decreasing_by
  all_goals
    have hlength := congrArg List.length (Level.split_eq_some _h).1
    simp only [List.length_append, List.length_cons] at hlength ⊢
    omega

theorem group?_eq {levels : List Level} {os : List TerminalId} {level : Level}
    (h : lowest? levels os = some level) (hne : os ≠ []) :
    group? levels os = (level.split os).bind fun (left, o, right) =>
      (group? levels left).bind fun l => (group? levels right).map fun r => .apply l o r := by
  obtain ⟨first, rest, rfl⟩ := List.exists_cons_of_ne_nil hne
  rw [group?]
  simp only [h]
  split <;> rename_i hsplit <;> rw [hsplit] <;> rfl

theorem exists_lowest? {levels : List Level} {os : List TerminalId} {o : TerminalId} (ho : o ∈ os)
    {level : Level} (hlevel : level ∈ levels) (hmem : o ∈ level.terminals) :
    ∃ lowest, lowest? levels os = some lowest ∧ ∃ o ∈ os, o ∈ lowest.terminals := by
  have hsome : (lowest? levels os).isSome = true :=
    List.find?_isSome.mpr ⟨level, hlevel, List.any_eq_true.mpr ⟨o, ho, decide_eq_true hmem⟩⟩
  obtain ⟨lowest, hlowest⟩ := Option.isSome_iff_exists.mp hsome
  exact ⟨lowest, hlowest, by simpa using List.find?_some hlowest⟩

/-- Somewhere in the grouping of a chain a level that is not associative occurs more than once. -/
inductive Repeats (levels : List Level) : List TerminalId → Prop
  | here {os : List TerminalId} {level : Level} (lowest : lowest? levels os = some level)
      (nonassoc : level.associativity = .nonassoc)
      (twice : 1 < os.countP (· ∈ level.terminals)) : Repeats levels os
  | left {os left right : List TerminalId} {level : Level} {o : TerminalId}
      (lowest : lowest? levels os = some level) (split : level.split os = some (left, o, right))
      (repeats : Repeats levels left) : Repeats levels os
  | right {os left right : List TerminalId} {level : Level} {o : TerminalId}
      (lowest : lowest? levels os = some level) (split : level.split os = some (left, o, right))
      (repeats : Repeats levels right) : Repeats levels os

namespace Level

variable {level : Level} {os left right : List TerminalId} {o : TerminalId}

theorem countP_of_split (h : level.split os = some (left, o, right))
    (hnonassoc : level.associativity = .nonassoc) : os.countP (· ∈ level.terminals) = 1 := by
  obtain ⟨rfl, ho, hleft, hright⟩ := split_eq_some h
  rw [hnonassoc] at hleft hright
  have hbefore : left.countP (· ∈ level.terminals) = 0 :=
    List.countP_eq_zero.mpr (by simpa using hleft)
  have hbehind : right.countP (· ∈ level.terminals) = 0 :=
    List.countP_eq_zero.mpr (by simpa using hright)
  simp [List.countP_append, hbefore, hbehind, ho]

theorem countP_of_split_eq_none (h : level.split os = none)
    (hmem : ∃ o ∈ os, o ∈ level.terminals) :
    level.associativity = .nonassoc ∧ 1 < os.countP (· ∈ level.terminals) := by
  obtain ⟨hnonassoc, left, a, middle, b, right, rfl, ha, hb, -, -⟩ := split_eq_none h hmem
  refine ⟨hnonassoc, ?_⟩
  simp only [List.countP_append, List.countP_cons, ha, hb, decide_true, if_true]
  omega

end Level

theorem not_repeats_nil {levels : List Level} : ¬ Repeats levels [] := by
  have hnone : lowest? levels [] = none := by simp [lowest?]
  intro h
  cases h with
  | here lowest | left lowest | right lowest =>
      rw [hnone] at lowest
      cases lowest

theorem repeats_iff_of_split {levels : List Level} {os left right : List TerminalId}
    {level : Level} {o : TerminalId} (hlowest : lowest? levels os = some level)
    (hsplit : level.split os = some (left, o, right)) :
    Repeats levels os ↔ Repeats levels left ∨ Repeats levels right := by
  constructor
  · intro h
    cases h with
    | here lowest nonassoc twice =>
        cases hlowest.symm.trans lowest
        rw [Level.countP_of_split hsplit nonassoc] at twice
        exact absurd twice (Nat.lt_irrefl 1)
    | left lowest split repeats =>
        cases hlowest.symm.trans lowest
        cases hsplit.symm.trans split
        exact .inl repeats
    | right lowest split repeats =>
        cases hlowest.symm.trans lowest
        cases hsplit.symm.trans split
        exact .inr repeats
  · rintro (h | h)
    · exact .left hlowest hsplit h
    · exact .right hlowest hsplit h

theorem group?_eq_none_iff {levels : List Level} {os : List TerminalId}
    (h : ∀ o ∈ os, ∃ level ∈ levels, o ∈ level.terminals) :
    group? levels os = none ↔ Repeats levels os := by
  induction hn : os.length using Nat.strong_induction_on generalizing os with
  | _ n ih =>
    by_cases hne : os = []
    · subst hne
      rw [group?]
      exact ⟨nofun, fun hrepeats => absurd hrepeats not_repeats_nil⟩
    · obtain ⟨o, ho⟩ := List.exists_mem_of_ne_nil os hne
      obtain ⟨level, hlevel, hmem⟩ := h o ho
      obtain ⟨lowest, hlowest, hoccurs⟩ := exists_lowest? ho hlevel hmem
      rw [group?_eq hlowest hne]
      rcases hsplit : lowest.split os with _ | ⟨left, o, right⟩
      · obtain ⟨hnonassoc, htwice⟩ := Level.countP_of_split_eq_none hsplit hoccurs
        exact ⟨fun _ => .here hlowest hnonassoc htwice, fun _ => rfl⟩
      · have hos := (Level.split_eq_some hsplit).1
        have hlength := congrArg List.length hos
        rw [List.length_append, List.length_cons] at hlength
        have hleft := ih left.length (by omega) (fun o ho => h o (by simp [hos, ho])) rfl
        have hright := ih right.length (by omega) (fun o ho => h o (by simp [hos, ho])) rfl
        rw [repeats_iff_of_split hlowest hsplit, ← hleft, ← hright]
        change ((group? levels left).bind fun l => (group? levels right).map fun r =>
          Expression.apply l o r) = none ↔ _
        cases group? levels left <;> simp

/-- An operator is on one level only, and its precedence `rank` is that of the level. -/
structure Ranked (levels : List Level) (rank : TerminalId → Option Precedence) (o : TerminalId)
    (i : Nat) (level : Level) : Prop where
  entry : levels[i]? = some level
  mem : o ∈ level.terminals
  unique : ∀ (j : Nat) other, levels[j]? = some other → o ∈ other.terminals → j = i
  rank : rank o = some ⟨i + 1, level.associativity⟩

theorem Ranked.isSome {levels : List Level} {rank : TerminalId → Option Precedence}
    {o : TerminalId} {i : Nat} {level : Level} (h : Ranked levels rank o i level) :
    (rank o).isSome = true := by
  rw [h.rank, Option.isSome_some]

/-- What decides between operators of one level. -/
def Associativity.resolution : Associativity → Resolution
  | .left => .reduce
  | .right => .shift
  | .nonassoc => .nonassoc

/-- What precedence says when the operator `a` comes next and `o` is waiting. -/
abbrev Resolution.of (rank : TerminalId → Option Precedence) (a o : TerminalId) :
    Option Resolution :=
  between (rank a) (rank o)

/-- The lowest level among some operators: those on it have its precedence, and all others have a
higher one. -/
structure Lowest (rank : TerminalId → Option Precedence) (os : List TerminalId) (level : Level)
    (priority : Nat) : Prop where
  occurs : ∃ o ∈ os, o ∈ level.terminals
  on : ∀ o ∈ os, o ∈ level.terminals → rank o = some ⟨priority, level.associativity⟩
  above : ∀ o ∈ os, o ∉ level.terminals → ∃ p, rank o = some p ∧ priority < p.priority

section Ranked

variable {levels : List Level} {rank : TerminalId → Option Precedence} {os : List TerminalId}
  {level : Level} {priority : Nat} {a o : TerminalId}

theorem exists_lowest (h : ∀ o ∈ os, ∃ i level, Ranked levels rank o i level) (hne : os ≠ []) :
    ∃ level priority, lowest? levels os = some level ∧ Lowest rank os level priority := by
  obtain ⟨o, ho⟩ := List.exists_mem_of_ne_nil os hne
  obtain ⟨j, other, hother⟩ := h o ho
  obtain ⟨level, hlevel, hoccurs⟩ :=
    exists_lowest? ho (List.mem_of_getElem? hother.entry) hother.mem
  obtain ⟨-, i, hi, hget, hbefore⟩ := List.find?_eq_some_iff_getElem.mp hlevel
  have hentry : levels[i]? = some level := List.getElem?_eq_some_iff.mpr ⟨hi, hget⟩
  refine ⟨level, i + 1, hlevel, hoccurs, fun a ha hon => ?_, fun a ha hoff => ?_⟩
  · obtain ⟨k, other, hranked⟩ := h a ha
    obtain rfl := hranked.unique i level hentry hon
    obtain rfl := Option.some.inj (hentry.symm.trans hranked.entry)
    exact hranked.rank
  · obtain ⟨k, other, hranked⟩ := h a ha
    refine ⟨_, hranked.rank, Nat.succ_lt_succ ?_⟩
    obtain ⟨hk, rfl⟩ := List.getElem?_eq_some_iff.mp hranked.entry
    rcases Nat.lt_trichotomy i k with hlt | rfl | hgt
    · exact hlt
    · exact absurd (hget ▸ hranked.mem) hoff
    · have hnone := hbefore k hgt
      simp only [Bool.not_eq_true', List.any_eq_false, decide_eq_true_eq] at hnone
      exact absurd hranked.mem (hnone a ha)

theorem Lowest.mixed (h : Lowest rank os level priority) (ho : o ∈ os) (hon : o ∈ level.terminals)
    (ha : a ∈ os) (hoff : a ∉ level.terminals) :
    Resolution.of rank o a = some .reduce ∧ Resolution.of rank a o = some .shift := by
  obtain ⟨p, hp, hlt⟩ := h.above a ha hoff
  rw [Resolution.of, Resolution.of, h.on o ho hon, hp, Resolution.between, Resolution.between]
  simp [hlt, Nat.lt_asymm hlt]

theorem Lowest.equal (h : Lowest rank os level priority) (ho : o ∈ os) (hon : o ∈ level.terminals)
    (ha : a ∈ os) (hon' : a ∈ level.terminals) :
    Resolution.of rank a o = some level.associativity.resolution := by
  rw [Resolution.of, h.on o ho hon, h.on a ha hon', Resolution.between]
  cases hassociativity : level.associativity <;> simp [Associativity.resolution]

/-- A chain of operators is split where all before give way to the operator, and the operator to all
behind; or two operators meet of which neither gives way. -/
theorem group?_cases (h : ∀ o ∈ os, ∃ i level, Ranked levels rank o i level) (hne : os ≠ []) :
    (∃ left o right, os = left ++ o :: right ∧
        group? levels os =
          ((group? levels left).bind fun l => (group? levels right).map fun r => .apply l o r) ∧
        (∀ a ∈ left, Resolution.of rank o a = some .reduce) ∧
        ∀ a ∈ right, Resolution.of rank a o = some .shift) ∨
      ∃ left o middle b right, os = left ++ o :: (middle ++ b :: right) ∧
        group? levels os = none ∧ (∀ a ∈ left, Resolution.of rank o a = some .reduce) ∧
        (∀ a ∈ middle, Resolution.of rank a o = some .shift ∧
          Resolution.of rank b a = some .reduce) ∧
        Resolution.of rank b o = some .nonassoc := by
  obtain ⟨level, priority, hlevel, hlowest⟩ := exists_lowest h hne
  rw [group?_eq hlevel hne]
  rcases hsplit : level.split os with _ | ⟨left, o, right⟩
  · obtain ⟨hnonassoc, left, o, middle, b, right, rfl, ho, hb, hleft, hmiddle⟩ :=
      Level.split_eq_none hsplit hlowest.occurs
    refine .inr ⟨left, o, middle, b, right, rfl, rfl, fun a ha => ?_, fun a ha => ⟨?_, ?_⟩, ?_⟩
    · exact (hlowest.mixed (by simp) ho (by simp [ha]) (hleft a ha)).1
    · exact (hlowest.mixed (by simp) ho (by simp [ha]) (hmiddle a ha)).2
    · exact (hlowest.mixed (by simp) hb (by simp [ha]) (hmiddle a ha)).1
    · rw [hlowest.equal (by simp) ho (by simp) hb, hnonassoc]
      rfl
  · obtain ⟨rfl, ho, hleft, hright⟩ := Level.split_eq_some hsplit
    refine .inl ⟨left, o, right, rfl, rfl, fun a ha => ?_, fun a ha => ?_⟩
    · by_cases hon : a ∈ level.terminals
      · rw [hlowest.equal (by simp [ha]) hon (by simp) ho,
          hleft.resolve_right fun hnone => hnone a ha hon]
        rfl
      · exact (hlowest.mixed (by simp) ho (by simp [ha]) hon).1
    · by_cases hon : a ∈ level.terminals
      · rw [hlowest.equal (by simp) ho (by simp [ha]) hon,
          hright.resolve_right fun hnone => hnone a ha hon]
        rfl
      · exact (hlowest.mixed (by simp) ho (by simp [ha]) hon).2

end Ranked

end Lalr
