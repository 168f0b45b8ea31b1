import Mathlib.Logic.Function.Basic
import Lalr.IdentSet

namespace Lalr

variable {kind : Kind}

theorem Ident.index_injective : Function.Injective (Ident.index : Ident kind → Nat) :=
  fun _ _ => Ident.ext_index

instance : Std.Irrefl (α := Ident kind) (· < ·) := ⟨fun a => Nat.lt_irrefl a.index⟩

namespace IdentSet

theorem mem_bitsFrom {chunks offset mask i : Nat}
    (h : ∀ j, 32 * chunks ≤ j → mask.testBit j = false) :
    i ∈ bitsFrom chunks offset mask ↔ offset ≤ i ∧ mask.testBit (i - offset) = true := by
  induction chunks generalizing offset mask with
  | zero => simp [bitsFrom, h]
  | succ chunks ih =>
      unfold bitsFrom
      split
      · rename_i hzero
        simp [hzero]
      · have hlow : ∀ j, (mask &&& 0xffffffff).testBit j = (mask.testBit j && decide (j < 32)) := by
          intro j
          rw [Nat.testBit_and, show (0xffffffff : Nat) = 2 ^ 32 - 1 from rfl,
            Nat.testBit_two_pow_sub_one]
        have hhigh : ∀ j, 32 * chunks ≤ j → (mask >>> 32).testBit j = false := by
          intro j hj
          rw [Nat.testBit_shiftRight]
          exact h _ (by omega)
        simp only [List.mem_append, List.mem_map, List.mem_filter, List.mem_range, hlow, ih hhigh,
          Nat.testBit_shiftRight, Bool.and_eq_true, decide_eq_true_eq]
        constructor
        · rintro (⟨j, ⟨-, hj, -⟩, rfl⟩ | ⟨hle, hbit⟩)
          · exact ⟨Nat.le_add_right _ _, by rwa [Nat.add_sub_cancel_left]⟩
          · refine ⟨by omega, ?_⟩
            rwa [show 32 + (i - (offset + 32)) = i - offset by omega] at hbit
        · rintro ⟨hle, hbit⟩
          rcases Nat.lt_or_ge (i - offset) 32 with hlt | hge
          · exact .inl ⟨i - offset, ⟨hlt, hbit, hlt⟩, by omega⟩
          · refine .inr ⟨by omega, ?_⟩
            rwa [show 32 + (i - (offset + 32)) = i - offset by omega]

theorem le_of_mem_bitsFrom {chunks offset mask i : Nat} (h : i ∈ bitsFrom chunks offset mask) :
    offset ≤ i := by
  induction chunks generalizing offset mask with
  | zero => cases h
  | succ chunks ih =>
      unfold bitsFrom at h
      split at h
      · cases h
      · rcases List.mem_append.mp h with hlow | hhigh
        · obtain ⟨j, -, rfl⟩ := List.mem_map.mp hlow
          exact Nat.le_add_right _ _
        · exact Nat.le_trans (Nat.le_add_right _ _) (ih hhigh)

theorem pairwise_bitsFrom (chunks offset mask : Nat) :
    (bitsFrom chunks offset mask).Pairwise (· < ·) := by
  induction chunks generalizing offset mask with
  | zero => exact .nil
  | succ chunks ih =>
      unfold bitsFrom
      split
      · exact .nil
      · refine List.pairwise_append.mpr ⟨?_, ih _ _, ?_⟩
        · rw [List.pairwise_map]
          exact (List.pairwise_lt_range.filter _).imp fun hlt => Nat.add_lt_add_left hlt offset
        · -- Whatever is listed of a piece comes before the next piece begins.
          intro i hi j hj
          obtain ⟨k, hk, rfl⟩ := List.mem_map.mp hi
          have hlt := List.mem_range.mp (List.mem_filter.mp hk).1
          have hle := le_of_mem_bitsFrom hj
          omega

@[simp] theorem mem_toList {a : Ident kind} {s : IdentSet kind} : a ∈ s.toList ↔ a ∈ s := by
  have hbits : ∀ i, i ∈ bitsFrom (maskWidth / 32) 0 s.mask ↔ s.mask.testBit i = true := by
    intro i
    rw [mem_bitsFrom fun j hj => s.testBit_of_le hj]
    simp
  rw [toList, List.mem_filterMap, mem_iff]
  constructor
  · rintro ⟨i, hi, ha⟩
    rw [Ident.ofNat?_eq_some.mp ha]
    exact (hbits i).mp hi
  · intro h
    exact ⟨a.index, (hbits _).mpr h, Ident.ofNat?_index a⟩

theorem pairwise_toList (s : IdentSet kind) : s.toList.Pairwise (· < ·) := by
  refine (pairwise_bitsFrom _ _ _).filterMap _ fun i j hij a ha b hb => ?_
  rwa [Ident.lt_iff, Ident.ofNat?_eq_some.mp ha, Ident.ofNat?_eq_some.mp hb]

theorem mem_ofList {a : Ident kind} {as : List (Ident kind)} : a ∈ ofList as ↔ a ∈ as := by
  have hfrom : ∀ s : IdentSet kind,
      a ∈ as.foldl (fun s b => s ∪ single b) s ↔ a ∈ s ∨ a ∈ as := by
    induction as with
    | nil => simp
    | cons b as ih =>
        intro s
        rw [List.foldl_cons, ih, mem_union, mem_single, List.mem_cons, or_assoc]
  rw [ofList, hfrom]
  exact or_iff_right (not_mem_empty a)

theorem isEmpty_iff {s : IdentSet kind} : s.isEmpty = true ↔ ∀ a, a ∉ s := by
  constructor
  · intro h a ha
    rw [mem_iff, beq_iff_eq.mp h, Nat.zero_testBit] at ha
    cases ha
  · intro h
    have hempty : s = ∅ := by
      ext a
      simp [h a]
    rw [hempty]
    rfl

theorem meets_iff {s t : IdentSet kind} : s.meets t = true ↔ ∃ a, a ∈ s ∧ a ∈ t := by
  have hmeets : s.meets t = !(s ∩ t).isEmpty := rfl
  rw [hmeets, Bool.not_eq_true', ← Bool.not_eq_true, isEmpty_iff]
  simp only [mem_inter, not_forall, not_not]

end IdentSet

end Lalr
