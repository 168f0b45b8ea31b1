/-!
Rounds of growth.  Every cell of an array grows by what the array says, until a round changes
nothing.  A round computes the cells from the array of the round before, or one after the other from
the array as it stands.  A cell that changes loses room, so the rounds come to an end.
-/

namespace Lalr.Saturation

variable {α : Type}

/-- One round: cell `i` becomes what `grow` makes of it. -/
def sweep (grow : Array α → Nat → α → α) (cells : Array α) : Array α :=
  cells.mapIdx (grow cells)

def growAt (grow : Array α → Nat → α → α) (cells : Array α) (i : Nat) : Array α :=
  match cells[i]? with
  | none => cells
  | some a => cells.setIfInBounds i (grow cells i a)

/-- The cells at the given places, one after the other, become what `grow` makes of them; each sees
what became of those before it. -/
def passOver (grow : Array α → Nat → α → α) (cells : Array α) : List Nat → Array α
  | [] => cells
  | i :: places => passOver grow (growAt grow cells i) places

def pass (grow : Array α → Nat → α → α) (cells : Array α) : Array α :=
  passOver grow cells (List.range cells.size)

def totalRoom (room : α → Nat) : List α → Nat
  | [] => 0
  | a :: cells => room a + totalRoom room cells

theorem totalRoom_mapIdx_le {room : α → Nat} (cells : List α) (f : Nat → α → α)
    (hf : ∀ i a, f i a ≠ a → room (f i a) < room a) :
    totalRoom room (cells.mapIdx f) ≤ totalRoom room cells := by
  induction cells generalizing f with
  | nil => simp [totalRoom]
  | cons a cells ih =>
      have hrest := ih (fun i => f (i + 1)) (fun i a => hf (i + 1) a)
      have hhead : room (f 0 a) ≤ room a := by
        by_cases h : f 0 a = a
        · exact Nat.le_of_eq (congrArg room h)
        · exact Nat.le_of_lt (hf 0 a h)
      simp only [totalRoom, List.mapIdx_cons] at hrest ⊢
      omega

theorem totalRoom_mapIdx_lt {room : α → Nat} (cells : List α) (f : Nat → α → α)
    (hf : ∀ i a, f i a ≠ a → room (f i a) < room a) (h : cells.mapIdx f ≠ cells) :
    totalRoom room (cells.mapIdx f) < totalRoom room cells := by
  induction cells generalizing f with
  | nil => simp at h
  | cons a cells ih =>
      have hle := totalRoom_mapIdx_le cells (fun i => f (i + 1)) (fun i a => hf (i + 1) a)
      simp only [totalRoom, List.mapIdx_cons] at hle ⊢
      by_cases ha : f 0 a = a
      · have hne : cells.mapIdx (fun i => f (i + 1)) ≠ cells := by
          intro e
          apply h
          rw [List.mapIdx_cons, ha, e]
        have hlt := ih (fun i => f (i + 1)) (fun i a => hf (i + 1) a) hne
        rw [ha]
        omega
      · have := hf 0 a ha
        omega

theorem totalRoom_modify_lt {room : α → Nat} {cells : List α} {i : Nat} {a : α} {f : α → α}
    (hi : cells[i]? = some a) (hlt : room (f a) < room a) :
    totalRoom room (cells.modify i f) < totalRoom room cells := by
  induction cells generalizing i with
  | nil => simp at hi
  | cons b cells ih =>
      cases i with
      | zero =>
          simp only [List.getElem?_cons_zero, Option.some.injEq] at hi
          subst hi
          simp only [totalRoom, List.modify_zero_cons]
          omega
      | succ i =>
          have := ih (by simpa using hi)
          simp only [totalRoom, List.modify_succ_cons] at this ⊢
          omega

theorem totalRoom_sweep_lt {room : α → Nat} {grow : Array α → Nat → α → α}
    (hgrow : ∀ cells i a, grow cells i a ≠ a → room (grow cells i a) < room a)
    {cells : Array α} (h : sweep grow cells ≠ cells) :
    totalRoom room (sweep grow cells).toList < totalRoom room cells.toList := by
  unfold sweep at h ⊢
  rw [Array.toList_mapIdx]
  apply totalRoom_mapIdx_lt
  · exact hgrow cells
  · intro e
    exact h (Array.toList_inj.mp (by rw [Array.toList_mapIdx, e]))

theorem getElem?_growAt (grow : Array α → Nat → α → α) (cells : Array α) (i j : Nat) :
    (growAt grow cells i)[j]? = if i = j then cells[j]?.map (grow cells i) else cells[j]? := by
  unfold growAt
  split
  · rename_i hnone
    split
    · rename_i hij
      rw [← hij, hnone]
      rfl
    · rfl
  · rename_i a hi
    rw [Array.getElem?_setIfInBounds]
    split
    · rename_i hij
      rw [← hij, hi, if_pos (Array.getElem?_eq_some_iff.mp hi).1]
      rfl
    · rfl

@[simp] theorem size_growAt (grow : Array α → Nat → α → α) (cells : Array α) (i : Nat) :
    (growAt grow cells i).size = cells.size := by
  unfold growAt
  split
  · rfl
  · exact Array.size_setIfInBounds

theorem growAt_eq_self {grow : Array α → Nat → α → α} {cells : Array α} {i : Nat}
    (h : ∀ a, cells[i]? = some a → grow cells i a = a) : growAt grow cells i = cells := by
  apply Array.ext_getElem?
  intro j
  rw [getElem?_growAt]
  split
  · rename_i hij
    subst hij
    cases hi : cells[i]? with
    | none => rfl
    | some a => exact congrArg some (h a hi)
  · rfl

theorem totalRoom_growAt_lt {room : α → Nat} {grow : Array α → Nat → α → α} {cells : Array α}
    {i : Nat} {a : α} (hi : cells[i]? = some a) (hlt : room (grow cells i a) < room a) :
    totalRoom room (growAt grow cells i).toList < totalRoom room cells.toList := by
  have hmodify : (growAt grow cells i).toList = cells.toList.modify i (grow cells i) := by
    apply List.ext_getElem?
    intro j
    rw [Array.getElem?_toList, getElem?_growAt, List.getElem?_modify, Array.getElem?_toList]
    split <;> simp
  rw [hmodify]
  exact totalRoom_modify_lt (Array.getElem?_toList.trans hi) hlt

/-- A round in place leaves less room, unless it changes nothing. -/
theorem passOver_cases {room : α → Nat} {grow : Array α → Nat → α → α}
    (hgrow : ∀ cells i a, grow cells i a ≠ a → room (grow cells i a) < room a)
    (cells : Array α) (places : List Nat) :
    totalRoom room (passOver grow cells places).toList < totalRoom room cells.toList ∨
      passOver grow cells places = cells ∧
        ∀ i ∈ places, ∀ a, cells[i]? = some a → grow cells i a = a := by
  induction places generalizing cells with
  | nil => exact .inr ⟨rfl, by simp⟩
  | cons i places ih =>
      rw [passOver]
      by_cases hsame : ∀ a, cells[i]? = some a → grow cells i a = a
      · rw [growAt_eq_self hsame]
        refine (ih cells).imp id fun ⟨heq, hrest⟩ => ⟨heq, ?_⟩
        intro j hj
        rcases List.mem_cons.mp hj with rfl | hj
        · exact hsame
        · exact hrest j hj
      · obtain ⟨a, ha, hne⟩ : ∃ a, cells[i]? = some a ∧ grow cells i a ≠ a := by
          simpa using hsame
        have hlt := totalRoom_growAt_lt ha (hgrow cells i a hne)
        left
        rcases ih (growAt grow cells i) with h | ⟨h, -⟩
        · exact Nat.lt_trans h hlt
        · rw [h]
          exact hlt

theorem totalRoom_pass_lt {room : α → Nat} {grow : Array α → Nat → α → α}
    (hgrow : ∀ cells i a, grow cells i a ≠ a → room (grow cells i a) < room a)
    {cells : Array α} (h : pass grow cells ≠ cells) :
    totalRoom room (pass grow cells).toList < totalRoom room cells.toList :=
  (passOver_cases hgrow cells _).resolve_right fun hsame => h hsame.1

theorem grow_eq_of_pass_eq {room : α → Nat} {grow : Array α → Nat → α → α}
    (hgrow : ∀ cells i a, grow cells i a ≠ a → room (grow cells i a) < room a)
    {cells : Array α} (h : pass grow cells = cells) {i : Nat} {a : α} (ha : cells[i]? = some a) :
    grow cells i a = a := by
  rcases passOver_cases hgrow cells (List.range cells.size) with hlt | ⟨-, hsame⟩
  · rw [← pass, h] at hlt
    exact absurd hlt (Nat.lt_irrefl _)
  · exact hsame i (List.mem_range.mpr (Array.getElem?_eq_some_iff.mp ha).1) a ha

/-- What every cell in its turn keeps is kept by a round in place. -/
theorem pass_induction {grow : Array α → Nat → α → α} {motive : Array α → Prop}
    (step : ∀ cells i, motive cells → motive (growAt grow cells i)) {cells : Array α}
    (start : motive cells) : motive (pass grow cells) := by
  unfold pass
  generalize List.range cells.size = places
  induction places generalizing cells with
  | nil => exact start
  | cons i places ih => exact ih (step cells i start)

def saturate [DecidableEq α] (round : Array α → Array α) (room : α → Nat)
    (hround : ∀ cells, round cells ≠ cells →
      totalRoom room (round cells).toList < totalRoom room cells.toList)
    (cells : Array α) : Array α :=
  let next := round cells
  if _ : next = cells then cells else saturate round room hround next
termination_by totalRoom room cells.toList
decreasing_by exact hround cells (by assumption)

variable [DecidableEq α] {round : Array α → Array α} {room : α → Nat}
  {hround : ∀ cells, round cells ≠ cells →
    totalRoom room (round cells).toList < totalRoom room cells.toList}

theorem round_saturate (cells : Array α) :
    round (saturate round room hround cells) = saturate round room hround cells := by
  fun_induction saturate round room hround cells with
  | case1 cells next h => exact h
  | case2 cells next h ih => exact ih

theorem saturate_induction {motive : Array α → Prop} {cells : Array α} (start : motive cells)
    (step : ∀ cells, motive cells → motive (round cells)) :
    motive (saturate round room hround cells) := by
  fun_induction saturate round room hround cells with
  | case1 cells next h => exact start
  | case2 cells next h ih => exact ih (step cells start)

end Lalr.Saturation
