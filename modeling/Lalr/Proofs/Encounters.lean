import Lalr.Proofs.ResolvedTables

namespace Lalr

variable {g : Grammar}

theorem mem_of_mem_pairs {α : Type} {R : α → α → Prop} {as : List α} (h : as.Pairwise R) {a b : α}
    (hab : (a, b) ∈ pairs as) : a ∈ as ∧ b ∈ as ∧ R a b := by
  induction as with
  | nil => cases hab
  | cons c as ih =>
      obtain ⟨hc, hrest⟩ := List.pairwise_cons.mp h
      rcases List.mem_append.mp hab with hab | hab
      · obtain ⟨b', hb', heq⟩ := List.mem_map.mp hab
        cases heq
        exact ⟨List.mem_cons_self, List.mem_cons_of_mem _ hb', hc b hb'⟩
      · obtain ⟨ha, hb, hR⟩ := ih hrest hab
        exact ⟨List.mem_cons_of_mem _ ha, List.mem_cons_of_mem _ hb, hR⟩

theorem nodup_pairs {α : Type} {as : List α} (h : as.Nodup) : (pairs as).Nodup := by
  induction as with
  | nil => exact List.nodup_nil
  | cons a as ih =>
      obtain ⟨ha, hrest⟩ := List.nodup_cons.mp h
      refine List.nodup_append.mpr ⟨?_, ih hrest, ?_⟩
      · exact hrest.map fun _ _ heq => congrArg Prod.snd heq
      · rintro x hx y hy rfl
        obtain ⟨b, -, rfl⟩ := List.mem_map.mp hx
        exact ha (mem_of_mem_pairs (List.pairwise_of_forall fun _ _ => trivial) hy).1

namespace State

theorem pairwise_insertByProduction {item : Item} {items : List Item}
    (h : items.Pairwise fun x y => x.core.production < y.core.production)
    (hitem : ∀ x ∈ items, x.core.production ≠ item.core.production) :
    (insertByProduction item items).Pairwise fun x y =>
      x.core.production < y.core.production := by
  induction items with
  | nil => exact List.pairwise_singleton ..
  | cons other items ih =>
      obtain ⟨hother, hrest⟩ := List.pairwise_cons.mp h
      unfold insertByProduction
      split
      · rename_i hlt
        refine List.pairwise_cons.mpr ⟨fun x hx => ?_, ih hrest fun x hx =>
          hitem x (List.mem_cons_of_mem _ hx)⟩
        rcases mem_insertByProduction.mp hx with rfl | hx
        · exact hlt
        · exact hother x hx
      · rename_i hnot
        have hlt : item.core.production < other.core.production := by
          have hne := hitem other List.mem_cons_self
          rw [Ne, Ident.ext_index_iff] at hne
          rw [Ident.lt_iff] at hnot ⊢
          omega
        refine List.pairwise_cons.mpr ⟨fun x hx => ?_, h⟩
        rcases List.mem_cons.mp hx with rfl | hx
        · exact hlt
        · exact Nat.lt_trans hlt (hother x hx)

theorem pairwise_completedOf {items completed : List Item}
    (hitems : items.Pairwise fun x y => g.after x.core = [] → g.after y.core = [] →
      x.core.production ≠ y.core.production) (h : completedOf g items = .ok completed) :
    completed.Pairwise fun x y => x.core.production < y.core.production := by
  induction items generalizing completed with
  | nil =>
      cases h
      exact .nil
  | cons item items ih =>
      obtain ⟨hitem, hrest⟩ := List.pairwise_cons.mp hitems
      unfold completedOf at h
      rcases hend : item.core.atEnd g with e | ended
      · rw [hend] at h
        cases h
      · rcases hlater : completedOf g items with e | later
        · rw [hend, hlater] at h
          cases h
        · rw [hend, hlater] at h
          cases h
          cases ended with
          | false => exact ih hrest hlater
          | true =>
              refine pairwise_insertByProduction (ih hrest hlater) fun x hx => ?_
              obtain ⟨hmem, hafter⟩ := (mem_completedOf hlater).mp hx
              exact Ne.symm (hitem x hmem ((Grammar.atEnd_eq_ok hend).mp rfl) hafter)

variable {q : State}

theorem Grounded.pairwise_completed (hq : q.Grounded g) {completed : List Item}
    (hcompleted : q.completed g = .ok completed) :
    completed.Pairwise fun x y => x.core.production < y.core.production := by
  have hcores := q.items.nodup
  rw [List.Nodup, List.pairwise_map] at hcores
  refine pairwise_completedOf (hcores.imp_of_mem fun hx hy hne hafter hafter' heq => hne ?_)
    hcompleted
  rw [hq.core_eq (Array.mem_toList_iff.mp hx) hafter, hq.core_eq (Array.mem_toList_iff.mp hy)
    hafter', heq]

/-- What a state encounters: the terminals on which a shift meets a reduction, with the lowest
reduction there, and the pairs of completed items that share lookaheads, the lower one first. -/
structure Encounters (g : Grammar) (q : State) where
  meetings : List (TerminalId × ProductionId)
  rivals : List (Item × Item)
  nodup_meetings : (meetings.map (·.1)).Nodup
  mem_meetings : ∀ {t p}, (t, p) ∈ meetings ↔
    q.Reduces g t p ∧ (q.transition? (.terminal t)).isSome = true
  nodup_rivals : rivals.Nodup
  mem_rivals : ∀ {x y}, (x, y) ∈ rivals ↔ q.Ends g x ∧ q.Ends g y ∧
    x.core.production < y.core.production ∧ ∃ t, t ∈ x.lookahead ∧ t ∈ y.lookahead

namespace Encounters

def resolved (e : q.Encounters g) : List Diagnostic :=
  e.meetings.filterMap fun (t, p) => (g.resolution? t p).map (.resolved q.id p t)

def unresolved (e : q.Encounters g) : List (TerminalId × ProductionId) :=
  e.meetings.filter fun (t, p) => (g.resolution? t p).isNone

def reduceReduce (e : q.Encounters g) : List Diagnostic :=
  e.rivals.map fun (x, y) =>
    .reduceReduce q.id x.core y.core (x.lookahead ∩ y.lookahead)

def shiftReduce (e : q.Encounters g) : List Diagnostic :=
  e.unresolved.map fun (t, p) => q.shiftReduceReport g t p

def reports (e : q.Encounters g) : List Diagnostic :=
  e.resolved ++ e.reduceReduce ++ e.shiftReduce

def counts (e : q.Encounters g) : ConflictCounts where
  conflicts := e.rivals.length + e.unresolved.length
  shiftReduce := e.resolved.length + e.unresolved.length
  reduceReduce := e.rivals.length
  resolved := e.resolved.length

end Encounters

theorem reduceReduceConflicts_eq (completed : List Item) :
    q.reduceReduceConflicts completed =
      ((pairs completed).filter fun (x, y) => !(x.lookahead ∩ y.lookahead).isEmpty).map
        fun (x, y) => .reduceReduce q.id x.core y.core (x.lookahead ∩ y.lookahead) := by
  unfold reduceReduceConflicts
  rw [← List.filterMap_eq_map, List.filterMap_filter]
  refine List.filterMap_congr fun xy _ => ?_
  cases hempty : (xy.1.lookahead ∩ xy.2.lookahead).isEmpty <;> simp [hempty]

/-- The rows of a state can be filled, and what is counted and reported on the way is what the state
encounters. -/
theorem Grounded.exists_encounters (hq : q.Grounded g) :
    ∃ (e : q.Encounters g) (row : ActionRow) (gotos : GotoRow),
      q.tabulate g = ⟨.ok (row, gotos, e.counts), e.reports⟩ := by
  obtain ⟨completed, f, hcompleted, hfill, -⟩ := hq.exists_filling
  obtain ⟨hnodup, hmeetings⟩ := hq.mem_meetings hcompleted hfill
  have hsorted := hq.pairwise_completed hcompleted
  have htells := Filling.tells_blank.proposeAll hfill
  have hrivals : ∀ {x y : Item},
      (x, y) ∈ (pairs completed).filter (fun (x, y) => !(x.lookahead ∩ y.lookahead).isEmpty) ↔
        q.Ends g x ∧ q.Ends g y ∧ x.core.production < y.core.production ∧
          ∃ t, t ∈ x.lookahead ∧ t ∈ y.lookahead := by
    intro x y
    have hcommon : (!(x.lookahead ∩ y.lookahead).isEmpty) = true ↔
        ∃ t, t ∈ x.lookahead ∧ t ∈ y.lookahead := IdentSet.meets_iff
    rw [List.mem_filter, hcommon, ← hq.ends_iff hcompleted, ← hq.ends_iff hcompleted]
    constructor
    · rintro ⟨hxy, ht⟩
      obtain ⟨hx, hy, hlt⟩ := mem_of_mem_pairs hsorted hxy
      exact ⟨hx, hy, hlt, ht⟩
    · rintro ⟨hx, hy, hlt, ht⟩
      refine ⟨?_, ht⟩
      rcases mem_pairs hx hy with rfl | hxy | hyx
      · exact absurd hlt (Nat.lt_irrefl _)
      · exact hxy
      · exact absurd (mem_of_mem_pairs hsorted hyx).2.2 (Nat.lt_asymm hlt)
  have hdistinct : completed.Nodup := hsorted.imp <| by
    rintro x y hlt rfl
    exact Nat.lt_irrefl _ hlt
  refine ⟨⟨f.meetings, _, hnodup, hmeetings, (nodup_pairs hdistinct).filter _, hrivals⟩,
    f.actions, f.gotos, ?_⟩
  rw [hq.tabulate_eq hcompleted hfill, Filling.resolved_eq htells, Filling.unresolved_eq htells,
    reduceReduceConflicts_eq, List.length_map]
  rfl

end State

end Lalr
