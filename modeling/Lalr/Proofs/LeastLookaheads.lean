import Mathlib.Logic.Relation
import Lalr.Proofs.Propagation

namespace Lalr.Automaton

open Relation (ReflTransGen)

variable {a b : Automaton}

/-- A link leads from the item at one place to another place. -/
def LinksTo (a : Automaton) (r r' : ItemRef) : Prop :=
  ∃ item, a.item r = .ok item ∧ r' ∈ item.links

/-- A terminal was in the lookahead of some item from which links lead to a place. -/
def Sends (a : Automaton) (r : ItemRef) (t : TerminalId) : Prop :=
  ∃ source item, a.item source = .ok item ∧ ReflTransGen a.LinksTo source r ∧ t ∈ item.lookahead

theorem within_sends (a : Automaton) : Within a.Sends a :=
  fun r item hitem _ ht => ⟨r, item, hitem, .refl, ht⟩

theorem conducts_sends (a : Automaton) : Conducts a.Sends a := by
  rintro r item hitem r' hr' t ⟨source, item₀, hitem₀, hpath, ht⟩
  exact ⟨source, item₀, hitem₀, hpath.tail ⟨item, hitem, hr'⟩, ht⟩

/-- When every item has passed its lookahead on, it has arrived wherever links lead. -/
theorem Fills.arrives (hab : a.Fills b) (hb : ∀ r, b.Settled r) {source r : ItemRef}
    (hpath : ReflTransGen a.LinksTo source r) {item item' : Item} (hitem : a.item source = .ok item)
    (hitem' : b.item r = .ok item') {t : TerminalId} (ht : t ∈ item.lookahead) :
    t ∈ item'.lookahead := by
  induction hpath generalizing item' with
  | refl =>
      obtain ⟨grown, hgrown, -, -, hmono⟩ := hab.item hitem
      rw [hgrown, Except.ok.injEq] at hitem'
      exact hitem' ▸ hmono t ht
  | tail _ hlink ih =>
      obtain ⟨before, hbefore, hmem⟩ := hlink
      obtain ⟨before', hbefore', -, hlinks, -⟩ := hab.item hbefore
      obtain ⟨target, htarget, hall⟩ := hb _ before' hbefore' _ (hlinks ▸ hmem)
      rw [htarget, Except.ok.injEq] at hitem'
      exact hitem' ▸ hall t (ih hbefore')

/-- Propagation ends well wherever links lead to items and all states have numbers of their own.  It
gives every item what can be sent to it along links, however they run, and leaves everything but the
lookaheads as it was. -/
theorem propagate_least (hsize : a.states.size ≤ 65536) (ha : a.WellLinked) :
    ∃ passes b, a.propagate = ⟨.ok passes, b⟩ ∧ b.blank = a.blank ∧
      ∀ r item, b.item r = .ok item → ∀ t, t ∈ item.lookahead ↔
        ∃ source item₀, a.item source = .ok item₀ ∧ ReflTransGen a.LinksTo source r ∧
          t ∈ item₀.lookahead := by
  obtain ⟨passes, b, hpropagate⟩ := propagate_total hsize ha
  obtain ⟨hfills, hwithin, hsettled⟩ := passFrom_spec (P := a.Sends) hpropagate
  refine ⟨passes, b, hpropagate, hfills.blank, fun r item hitem t => ⟨?_, ?_⟩⟩
  · exact hwithin (conducts_sends a) (within_sends a) hitem t
  · rintro ⟨source, item₀, hitem₀, hpath, ht⟩
    exact hfills.arrives hsettled hpath hitem₀ hitem ht

/-- One state with two items that are linked to each other, the second one also to itself. -/
def ring : Automaton :=
  let first := (ItemSet.empty.add (.initial (.nth 1) (.single TerminalId.eof))).1
  let both := (first.add (.initial (.nth 2) (.single (.nth 1)))).1
  let linked := ((both.addLink 0 ⟨.start, 1⟩).addLink 1 ⟨.start, 0⟩).addLink 1 ⟨.start, 1⟩
  ⟨#[⟨.start, linked, 1, []⟩], .empty, 0⟩

theorem propagate_least_ring :
    ring.states.size ≤ 65536 ∧ ring.WellLinked ∧
    ∃ passes b, ring.propagate = ⟨.ok passes, b⟩ ∧ b.blank = ring.blank ∧
      ∀ r item, b.item r = .ok item → ∀ t, t ∈ item.lookahead ↔
        ∃ source item₀, ring.item source = .ok item₀ ∧ ReflTransGen ring.LinksTo source r ∧
          t ∈ item₀.lookahead := by
  have hsize : ring.states.size ≤ 65536 := by
    decide
  have hlinked : ring.WellLinked := by
    decide +kernel
  exact ⟨hsize, hlinked, propagate_least hsize hlinked⟩

/-- A state with items, `n` states without any, and another state with items. -/
def apart (n : Nat) (first last : ItemSet) : Automaton where
  states := #[⟨.start, first, 0, []⟩] ++ Array.replicate n ⟨.start, .empty, 0, []⟩ ++
    #[⟨.start, last, 0, []⟩]
  kernels := .empty
  passes := 0

section Apart

variable (n : Nat) (first last : ItemSet)

theorem places_apart : (apart n first last).places =
    (List.range first.size).map (ItemRef.mk .start) ++
      (List.range last.size).map (ItemRef.mk (.truncate .state (n + 1))) := by
  have hstates : (apart n first last).states.toList =
      ⟨.start, first, 0, []⟩ :: (List.replicate n ⟨.start, .empty, 0, []⟩ ++
        [⟨.start, last, 0, []⟩]) := by
    simp [apart]
  have hempty : ((List.replicate n (⟨.start, .empty, 0, []⟩ : State)).zipIdx 1).flatMap
      (fun q => q.1.places q.2) = [] := by
    refine List.flatMap_eq_nil_iff.mpr fun q hq => ?_
    rw [List.eq_of_mem_replicate (List.fst_mem_of_mem_zipIdx hq)]
    rfl
  rw [places, hstates, List.zipIdx_cons, List.flatMap_cons, List.zipIdx_append,
    List.flatMap_append, hempty, List.length_replicate, Nat.zero_add, Nat.add_comm 1 n,
    List.zipIdx_singleton, List.flatMap_singleton, List.nil_append]
  rfl

theorem mem_states_apart {q : State} (h : q ∈ (apart n first last).states) :
    q.items ∈ [first, .empty, last] := by
  simp only [apart, Array.mem_append, List.mem_toArray, List.mem_singleton,
    Array.mem_replicate] at h
  rcases h with (rfl | ⟨-, rfl⟩) | rfl <;> simp

theorem getElem?_states_apart :
    (apart n first last).states[StateId.start.index]? = some ⟨.start, first, 0, []⟩ := by
  rw [apart, Array.append_assoc, Array.getElem?_append_left Nat.zero_lt_one]
  rfl

variable {n first last} {slot : Nat}

theorem item_apart {item : Item} (h : first.get? slot = some item) :
    (apart n first last).item ⟨.start, slot⟩ = .ok item := by
  simp only [Automaton.item, getElem?_states_apart, h]

theorem item_apart_of_none (h : first.get? slot = none) :
    (apart n first last).item ⟨.start, slot⟩ = .error (.danglingLink .start .start) := by
  simp only [Automaton.item, getElem?_states_apart, h]

end Apart

def lone : ItemSet := (ItemSet.empty.add (.initial (.nth 1) (.single TerminalId.eof))).1

/-- With more states than numbers propagation can fail although nothing is linked.  The last of these
states is taken for the first one, which has no items. -/
theorem propagate_apart :
    (∀ q ∈ (apart 65535 .empty lone).states, ∀ item ∈ q.items.items, ∀ r ∈ item.links,
      (apart 65535 .empty lone).Occupied r) ∧
    (apart 65535 .empty lone).propagate.outcome = .error (.danglingLink .start .start) := by
  constructor
  · intro q hq item hitem r hr
    have hnone : ∀ s ∈ [.empty, .empty, lone], ∀ item ∈ s.items, item.links = [] := by
      decide
    rw [hnone q.items (mem_states_apart _ _ _ hq) item hitem] at hr
    cases hr
  · have hplaces : (apart 65535 .empty lone).places = [⟨.start, 0⟩] := by
      rw [places_apart]
      rfl
    have hitem : (apart 65535 .empty lone).item ⟨.start, 0⟩ =
        .error (.danglingLink .start .start) := item_apart_of_none rfl
    have hpass : pass (apart 65535 .empty lone).places (apart 65535 .empty lone) false =
        ⟨.error (.danglingLink .start .start), apart 65535 .empty lone⟩ := by
      rw [hplaces, pass, flow, hitem]
      rfl
    rw [propagate, passFrom]
    split
    all_goals
      rename_i h
      rw [hpass] at h
      cases h
    rfl

end Lalr.Automaton
