import Lalr.Attempt
import Lalr.Item.Set

namespace Lalr

namespace ItemSet

def predicted : List ItemCore → IdentSet .production
  | [] => ∅
  | c :: cores => if c.dot = 0 then predicted cores ∪ .single c.production else predicted cores

theorem mem_predicted {p : ProductionId} {cores : List ItemCore} :
    p ∈ predicted cores ↔ ⟨p, 0⟩ ∈ cores := by
  induction cores with
  | nil => simp [predicted]
  | cons c cores ih =>
      unfold predicted
      rw [List.mem_cons, ItemCore.ext_iff]
      split
      · rename_i h
        simp [ih, h, or_comm]
      · rename_i h
        simp [ih, Ne.symm h]

def unpredicted (cores : List ItemCore) : Nat :=
  (predicted cores).room

theorem unpredicted_append_lt {cores : List ItemCore} {p : ProductionId}
    (h : (⟨p, 0⟩ : ItemCore) ∉ cores) : unpredicted (cores ++ [⟨p, 0⟩]) < unpredicted cores := by
  have hunion : predicted (cores ++ [⟨p, 0⟩]) = predicted cores ∪ .single p := by
    ext a
    simp [mem_predicted, ItemCore.ext_iff]
  unfold unpredicted
  rw [hunion]
  apply IdentSet.room_union_lt
  intro e
  apply h
  rw [← mem_predicted, ← e]
  simp

/-- Adds the items predicted from the item in `slot`: the productions `ps` under `lookahead`, linked
to if `linked` is set.  New slots go in front of `pending`. -/
def predict (owner : StateId) (slot : Nat) (lookahead : TerminalSet) (linked : Bool) :
    List ProductionId → ItemSet → List Nat → ItemSet × List Nat
  | [], s, pending => (s, pending)
  | p :: ps, s, pending =>
    let (s, target, isNew) := s.add (.initial p lookahead)
    let s := if linked then s.addLink slot ⟨owner, target⟩ else s
    predict owner slot lookahead linked ps s (if isNew then target :: pending else pending)

theorem unpredicted_predict (owner : StateId) (slot : Nat) (lookahead : TerminalSet)
    (linked : Bool) (ps : List ProductionId) (s : ItemSet) (pending : List Nat) :
    unpredicted (predict owner slot lookahead linked ps s pending).1.cores
      + (predict owner slot lookahead linked ps s pending).2.length
      ≤ unpredicted s.cores + pending.length := by
  induction ps generalizing s pending with
  | nil => simp [predict]
  | cons p ps ih =>
      simp only [predict]
      refine Nat.le_trans (ih _ _) ?_
      have hcores : (if linked then (s.add (.initial p lookahead)).1.addLink slot
            ⟨owner, (s.add (.initial p lookahead)).2.1⟩
          else (s.add (.initial p lookahead)).1).cores
          = (s.add (.initial p lookahead)).1.cores := by
        split <;> simp
      rw [hcores, cores_add]
      by_cases hmem : (Item.initial p lookahead).core ∈ s.cores
      · have hnew : ¬ (s.add (.initial p lookahead)).2.2 = true := by
          rw [add_isNew]; exact fun h => h hmem
        simp [hmem, hnew]
      · have hnew := add_isNew.mpr hmem
        have hlt := unpredicted_append_lt hmem
        rw [if_neg hmem, if_pos hnew]
        simp only [List.length_cons]
        change unpredicted (s.cores ++ [⟨p, 0⟩]) + _ ≤ _
        omega

def closeFrom (g : Grammar) (owner : StateId) (s : ItemSet) (pending : List Nat) :
    Attempt Violation ItemSet Unit :=
  match pending with
  | [] => .succeed () s
  | slot :: pending =>
    match s.items[slot]? with
    | none => closeFrom g owner s pending
    | some item =>
      match g.production? item.core.production with
      | none => .fail (.unknownProduction item.core.production) s
      | some p =>
        match p.symbolAt item.core.dot with
        | some (.nonterminal n) =>
          let (lookahead, vanishes) :=
            g.firstWithLookahead p.rhs (item.core.dot + 1) item.lookahead
          let closed := predict owner slot lookahead vanishes (g.productionsOf n) s pending
          closeFrom g owner closed.1 closed.2
        | _ => closeFrom g owner s pending
termination_by unpredicted s.cores + pending.length
decreasing_by
  all_goals simp only [List.length_cons]
  · omega
  · exact Nat.lt_of_le_of_lt (unpredicted_predict ..) (by omega)
  · omega

def close (g : Grammar) (owner : StateId) (s : ItemSet) : Attempt Violation ItemSet Unit :=
  s.closeFrom g owner (List.range s.size)

end ItemSet

end Lalr
