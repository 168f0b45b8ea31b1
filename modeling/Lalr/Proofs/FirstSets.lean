import Lalr.Grammar.Finish
import Lalr.Proofs.Derivation

namespace Lalr

theorem Alternatives.lt_size_of_mem {alternatives : Alternatives} {n : Nat} {rhs : Array Part}
    (h : rhs ∈ alternatives.ofIndex n) : n < alternatives.size := by
  rcases Nat.lt_or_ge n alternatives.size with hlt | hge
  · exact hlt
  · simp [Alternatives.ofIndex, Array.getElem?_eq_none hge] at h

namespace FirstSets

/-- Whether a string starts with `t` once what `first` and `nullable` say about its nonterminals is
taken for granted. -/
def Starts (nullable : NonterminalId → Bool) (first : NonterminalId → TerminalSet) :
    List Symbol → TerminalId → Prop
  | [], _ => False
  | .terminal u :: _, t => t = u
  | .nonterminal n :: symbols, t =>
      t ∈ first n ∨ nullable n = true ∧ Starts nullable first symbols t

def AllNullable (nullable : NonterminalId → Bool) : List Symbol → Prop
  | [] => True
  | .terminal _ :: _ => False
  | .nonterminal n :: symbols => nullable n = true ∧ AllNullable nullable symbols

variable {nullable : NonterminalId → Bool} {first : NonterminalId → TerminalSet}

theorem allNullable_append {u v : List Symbol} :
    AllNullable nullable (u ++ v) ↔ AllNullable nullable u ∧ AllNullable nullable v := by
  induction u with
  | nil => simp [AllNullable]
  | cons s u ih => cases s <;> simp [AllNullable, ih, and_assoc]

theorem starts_append {u v : List Symbol} {t : TerminalId} :
    Starts nullable first (u ++ v) t ↔
      Starts nullable first u t ∨ AllNullable nullable u ∧ Starts nullable first v t := by
  induction u with
  | nil => simp [Starts, AllNullable]
  | cons s u ih =>
      cases s with
      | terminal t => simp [Starts, AllNullable]
      | nonterminal n => grind [Starts, AllNullable]

theorem drop_symbols {rhs : Array Part} {i : Nat} (h : i < rhs.size) :
    (rhs.toList.map Part.symbol).drop i =
      rhs[i].symbol :: (rhs.toList.map Part.symbol).drop (i + 1) := by
  rw [List.drop_eq_getElem_cons (by simpa using h)]
  simp

theorem drop_symbols_of_le {rhs : Array Part} {i : Nat} (h : ¬ i < rhs.size) :
    (rhs.toList.map Part.symbol).drop i = [] :=
  List.drop_eq_nil_of_le (by simpa using h)

theorem mem_ofPositions {rhs : Array Part} {i : Nat} {found : TerminalSet} {t : TerminalId} :
    t ∈ (ofPositions nullable first rhs i found).1 ↔
      t ∈ found ∨ Starts nullable first ((rhs.toList.map Part.symbol).drop i) t := by
  fun_induction ofPositions nullable first rhs i found with
  | case1 i found h u hu => simp [drop_symbols h, hu, Starts]
  | case2 i found h n hn hnull ih =>
      rw [ih, drop_symbols h, hn]
      simp [Starts, hnull, or_assoc]
  | case3 i found h n hn hnull => simp [drop_symbols h, hn, Starts, hnull]
  | case4 i found h => simp [drop_symbols_of_le h, Starts]

theorem ofPositions_snd {rhs : Array Part} {i : Nat} {found : TerminalSet} :
    (ofPositions nullable first rhs i found).2 = true ↔
      AllNullable nullable ((rhs.toList.map Part.symbol).drop i) := by
  fun_induction ofPositions nullable first rhs i found with
  | case1 i found h u hu => simp [drop_symbols h, hu, AllNullable]
  | case2 i found h n hn hnull ih =>
      rw [ih, drop_symbols h, hn]
      simp [AllNullable, hnull]
  | case3 i found h n hn hnull => simp [drop_symbols h, hn, AllNullable, hnull]
  | case4 i found h => simp [drop_symbols_of_le h, AllNullable]

theorem mem_foldl_ofPositions {rights : List (Array Part)} {found : TerminalSet}
    {t : TerminalId} :
    t ∈ rights.foldl (fun found rhs => (ofPositions nullable first rhs 0 found).1) found ↔
      t ∈ found ∨ ∃ rhs ∈ rights, Starts nullable first (rhs.toList.map Part.symbol) t := by
  induction rights generalizing found with
  | nil => simp
  | cons rhs rights ih => simp [ih, mem_ofPositions, or_assoc]

end FirstSets

namespace Grammar

open FirstSets

def ListedBy (g : Grammar) (alternatives : Alternatives) : Prop :=
  ∀ n symbols, (∃ p, g.HasRule p n symbols) ↔
    ∃ rhs ∈ alternatives.ofIndex n.index, rhs.toList.map Part.symbol = symbols

section Soundness

variable {g : Grammar} {nullable : NonterminalId → Bool} {first : NonterminalId → TerminalSet}

theorem vanishes_of_allNullable (hnull : ∀ n, nullable n = true → g.Vanishes [.nonterminal n])
    {u : List Symbol} (h : AllNullable nullable u) : g.Vanishes u := by
  induction u with
  | nil => exact .refl []
  | cons s u ih =>
      cases s with
      | terminal t => exact h.elim
      | nonterminal n => exact (hnull n h.1).append (ih h.2)

theorem begins_of_starts (hnull : ∀ n, nullable n = true → g.Vanishes [.nonterminal n])
    (hfirst : ∀ n t, t ∈ first n → g.Begins [.nonterminal n] t) {u : List Symbol}
    {t : TerminalId} (h : Starts nullable first u t) : g.Begins u t := by
  induction u with
  | nil => exact h.elim
  | cons s u ih =>
      cases s with
      | terminal t' =>
          obtain rfl : t = t' := h
          exact .terminal t u
      | nonterminal n =>
          rcases h with h | ⟨hn, h⟩
          · exact (hfirst n t h).append_right u
          · exact .append_left (hnull n hn) (ih h)

end Soundness

section Completeness

variable {g : Grammar} {nullable : NonterminalId → Bool} {first : NonterminalId → TerminalSet}
  (nullClosed : ∀ {p n rhs}, g.HasRule p n rhs → AllNullable nullable rhs → nullable n = true)

include nullClosed

theorem allNullable_of_vanishes {u : List Symbol} (h : g.Vanishes u) :
    AllNullable nullable u := by
  induction h using Relation.ReflTransGen.head_induction_on with
  | refl => exact trivial
  | head step _ ih =>
      cases step with
      | rule hrule u v =>
          rw [allNullable_append, allNullable_append] at ih
          obtain ⟨hu, hrhs, hv⟩ := ih
          exact allNullable_append.mpr ⟨hu, nullClosed hrule hrhs, hv⟩

theorem starts_of_begins (firstClosed : ∀ {p n rhs t}, g.HasRule p n rhs →
      Starts nullable first rhs t → t ∈ first n) {u : List Symbol} {t : TerminalId}
    (h : g.Begins u t) : Starts nullable first u t := by
  obtain ⟨w, h⟩ := h
  induction h using Relation.ReflTransGen.head_induction_on with
  | refl => exact rfl
  | head step _ ih =>
      cases step with
      | rule hrule u v =>
          rw [starts_append, starts_append] at ih
          refine starts_append.mpr (ih.imp id fun ⟨hu, h⟩ => ⟨hu, ?_⟩)
          rcases h with h | ⟨hrhs, hv⟩
          · exact .inl (firstClosed hrule h)
          · exact .inr ⟨nullClosed hrule hrhs, hv⟩

end Completeness

end Grammar

namespace Nullability

open FirstSets

variable {alternatives : Alternatives}

theorem allNullable_known {nullable : Array Bool} {rhs : Array Part} :
    AllNullable (fun n => known nullable (.nonterminal n)) (rhs.toList.map Part.symbol) ↔
      rhs.all (fun part => known nullable part.symbol) = true := by
  rw [← Array.all_toList]
  induction rhs.toList with
  | nil => simp [AllNullable]
  | cons part parts ih =>
      cases hs : part.symbol with
      | terminal t => simp [AllNullable, hs, known]
      | nonterminal n => simp [AllNullable, hs, ih]

theorem known_sweep {nullable : Array Bool} {n : NonterminalId}
    (h : known (Saturation.sweep (grow alternatives) nullable) (.nonterminal n) = true) :
    known nullable (.nonterminal n) = true ∨ ∃ rhs ∈ alternatives.ofIndex n.index,
      AllNullable (fun m => known nullable (.nonterminal m)) (rhs.toList.map Part.symbol) := by
  simp only [known, Saturation.sweep, Array.getElem?_mapIdx] at h ⊢
  cases hn : nullable[n.index]? with
  | none => simp [hn] at h
  | some now =>
      simp only [hn, Option.map_some, Option.getD_some, grow, Bool.or_eq_true,
        List.any_eq_true] at h
      exact h.imp id fun ⟨rhs, hmem, hall⟩ => ⟨rhs, hmem, allNullable_known.mpr hall⟩

theorem size_compute : (compute alternatives).size = alternatives.size := by
  unfold compute
  refine Saturation.saturate_induction (motive := fun cells => cells.size = alternatives.size)
    (by simp) fun cells h => ?_
  simpa [Saturation.sweep] using h

theorem known_of_allNullable {n : NonterminalId} {rhs : Array Part}
    (hrhs : rhs ∈ alternatives.ofIndex n.index)
    (hall : AllNullable (fun m => known (compute alternatives) (.nonterminal m))
      (rhs.toList.map Part.symbol)) :
    known (compute alternatives) (.nonterminal n) = true := by
  have hsize : n.index < (compute alternatives).size := by
    rw [size_compute]
    exact Alternatives.lt_size_of_mem hrhs
  have hfix : Saturation.sweep (grow alternatives) (compute alternatives) = compute alternatives :=
    Saturation.round_saturate _
  have hcell : (Saturation.sweep (grow alternatives) (compute alternatives))[n.index]? =
      (compute alternatives)[n.index]? := by
    rw [hfix]
  simp only [Saturation.sweep, Array.getElem?_mapIdx, Array.getElem?_eq_getElem hsize,
    Option.map_some, Option.some.injEq] at hcell
  simp only [known, Array.getElem?_eq_getElem hsize, Option.getD_some]
  rw [← hcell, grow, Bool.or_eq_true]
  exact .inr (List.any_eq_true.mpr ⟨rhs, hrhs, allNullable_known.mp hall⟩)

theorem vanishes_of_known {g : Grammar} (hg : g.ListedBy alternatives) {n : NonterminalId}
    (h : known (compute alternatives) (.nonterminal n) = true) : g.Vanishes [.nonterminal n] := by
  revert n
  unfold compute
  refine Saturation.saturate_induction (motive := fun cells =>
    ∀ {n}, known cells (.nonterminal n) = true → g.Vanishes [.nonterminal n]) ?_ ?_
  · intro n h
    simp [known, Array.getElem?_replicate] at h
    split at h <;> simp at h
  · intro cells ih n h
    rcases known_sweep h with h | ⟨rhs, hmem, hall⟩
    · exact ih h
    · obtain ⟨p, hrule⟩ := (hg n _).mpr ⟨rhs, hmem, rfl⟩
      exact hrule.derives.trans (Grammar.vanishes_of_allNullable (fun m => ih) hall)

theorem known_iff {g : Grammar} (hg : g.ListedBy alternatives) {n : NonterminalId} :
    known (compute alternatives) (.nonterminal n) = true ↔ g.Vanishes [.nonterminal n] := by
  refine ⟨vanishes_of_known hg, fun h => ?_⟩
  have hall : AllNullable (fun m => known (compute alternatives) (.nonterminal m))
      [.nonterminal n] := by
    refine Grammar.allNullable_of_vanishes ?_ h
    intro p m rhs hrule hall
    obtain ⟨right, hmem, rfl⟩ := (hg m rhs).mp ⟨p, hrule⟩
    exact known_of_allNullable hmem hall
  exact hall.1

end Nullability

namespace FirstSets

variable {alternatives : Alternatives} {nullable : Array Bool}

theorem size_compute : (compute alternatives nullable).size = alternatives.size := by
  unfold compute
  refine Saturation.saturate_induction (motive := fun cells => cells.size = alternatives.size)
    (by simp) fun cells => ?_
  apply Saturation.pass_induction (motive := fun cells => cells.size = alternatives.size)
  intro cells i h
  rwa [Saturation.size_growAt]

theorem mem_grow {sets : Array TerminalSet} {n : Nat} {now : TerminalSet} {t : TerminalId} :
    t ∈ grow alternatives nullable sets n now ↔
      t ∈ now ∨ ∃ rhs ∈ alternatives.ofIndex n,
        Starts (fun m => Nullability.known nullable (.nonterminal m)) (ofNonterminal sets)
          (rhs.toList.map Part.symbol) t := by
  simp [grow, mem_foldl_ofPositions]

theorem mem_of_starts {n : NonterminalId} {rhs : Array Part} {t : TerminalId}
    (hrhs : rhs ∈ alternatives.ofIndex n.index)
    (h : Starts (fun m => Nullability.known nullable (.nonterminal m))
      (ofNonterminal (compute alternatives nullable)) (rhs.toList.map Part.symbol) t) :
    t ∈ ofNonterminal (compute alternatives nullable) n := by
  have hsize : n.index < (compute alternatives nullable).size := by
    rw [size_compute]
    exact Alternatives.lt_size_of_mem hrhs
  have hfix : Saturation.pass (grow alternatives nullable) (compute alternatives nullable) =
      compute alternatives nullable := Saturation.round_saturate _
  have hcell := Saturation.grow_eq_of_pass_eq (room_grow_lt alternatives nullable) hfix
    (Array.getElem?_eq_getElem hsize)
  simp only [ofNonterminal, Array.getElem?_eq_getElem hsize, Option.getD_some]
  rw [← hcell]
  exact mem_grow.mpr (.inr ⟨rhs, hrhs, h⟩)

theorem begins_of_mem {g : Grammar} (hg : g.ListedBy alternatives)
    (hnull : ∀ n, Nullability.known nullable (.nonterminal n) = true → g.Vanishes [.nonterminal n])
    {n : NonterminalId} {t : TerminalId}
    (h : t ∈ ofNonterminal (compute alternatives nullable) n) : g.Begins [.nonterminal n] t := by
  revert n t
  unfold compute
  refine Saturation.saturate_induction (motive := fun cells =>
    ∀ {n t}, t ∈ ofNonterminal cells n → g.Begins [.nonterminal n] t) ?_ fun cells => ?_
  · intro n t h
    simp only [ofNonterminal, Array.getElem?_replicate] at h
    split at h <;> simp at h
  · apply Saturation.pass_induction (motive := fun cells =>
      ∀ {n t}, t ∈ ofNonterminal cells n → g.Begins [.nonterminal n] t)
    intro cells i ih n t h
    simp only [ofNonterminal, Saturation.getElem?_growAt] at h
    split at h
    · rename_i hi
      subst hi
      cases hn : cells[n.index]? with
      | none => simp [hn] at h
      | some now =>
          rw [hn, Option.map_some, Option.getD_some, mem_grow] at h
          rcases h with h | ⟨rhs, hmem, hstarts⟩
          · exact ih (by simpa [ofNonterminal, hn] using h)
          · obtain ⟨p, hrule⟩ := (hg n _).mpr ⟨rhs, hmem, rfl⟩
            exact .of_derives hrule.derives
              (Grammar.begins_of_starts hnull (fun _ _ => ih) hstarts)
    · exact ih h

theorem mem_iff {g : Grammar} (hg : g.ListedBy alternatives) {n : NonterminalId}
    {t : TerminalId} :
    t ∈ ofNonterminal (compute alternatives (Nullability.compute alternatives)) n ↔
      g.Begins [.nonterminal n] t := by
  refine ⟨begins_of_mem hg fun _ => Nullability.vanishes_of_known hg, fun h => ?_⟩
  have hstarts : Starts
      (fun m => Nullability.known (Nullability.compute alternatives) (.nonterminal m))
      (ofNonterminal (compute alternatives (Nullability.compute alternatives)))
      [.nonterminal n] t := by
    refine Grammar.starts_of_begins ?_ ?_ h
    · intro p m rhs hrule hall
      obtain ⟨right, hmem, rfl⟩ := (hg m rhs).mp ⟨p, hrule⟩
      exact Nullability.known_of_allNullable hmem hall
    · intro p m rhs t hrule hstarts
      obtain ⟨right, hmem, rfl⟩ := (hg m rhs).mp ⟨p, hrule⟩
      exact mem_of_starts hmem hstarts
  exact hstarts.elim id fun h => h.2.elim

end FirstSets

end Lalr
