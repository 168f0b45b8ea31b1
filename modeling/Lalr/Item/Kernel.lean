import Lalr.Item.Set

namespace Lalr

structure Kernel where
  cores : List ItemCore
  sorted : cores.Pairwise (· < ·)
  deriving DecidableEq

namespace ItemCore

theorem lt_trans {a b c : ItemCore} (hab : a < b) (hbc : b < c) : a < c := by
  simp only [lt_iff, Ident.lt_iff] at *
  rcases hab with h | ⟨h, hd⟩ <;> rcases hbc with h' | ⟨h', hd'⟩
  · exact .inl (by omega)
  · exact .inl (h' ▸ h)
  · exact .inl (h ▸ h')
  · exact .inr ⟨h.trans h', by omega⟩

theorem lt_of_not {a b : ItemCore} (h : ¬ a < b) (hne : a ≠ b) : b < a := by
  simp only [lt_iff, Ident.lt_iff, not_or, not_and] at *
  obtain ⟨hp, hd⟩ := h
  by_cases heq : a.production = b.production
  · refine .inr ⟨heq.symm, ?_⟩
    have := hd heq
    have hdot : a.dot ≠ b.dot := by
      intro e
      apply hne
      cases a; cases b
      simp_all
    omega
  · have : a.production.index ≠ b.production.index := fun e => heq (Ident.ext_index e)
    exact .inl (by omega)

def insertSorted (c : ItemCore) : List ItemCore → List ItemCore
  | [] => [c]
  | d :: ds =>
    if c < d then c :: d :: ds
    else if c = d then d :: ds
    else d :: insertSorted c ds

@[simp] theorem mem_insertSorted {a c : ItemCore} {ds : List ItemCore} :
    a ∈ insertSorted c ds ↔ a = c ∨ a ∈ ds := by
  induction ds with
  | nil => simp [insertSorted]
  | cons d ds ih =>
      unfold insertSorted
      split
      · simp
      · split
        · rename_i h
          subst h
          simp
        · simp only [List.mem_cons, ih]
          exact or_left_comm

theorem pairwise_insertSorted {c : ItemCore} {ds : List ItemCore} (h : ds.Pairwise (· < ·)) :
    (insertSorted c ds).Pairwise (· < ·) := by
  induction ds with
  | nil => simp [insertSorted]
  | cons d ds ih =>
      obtain ⟨hd, hds⟩ := List.pairwise_cons.mp h
      unfold insertSorted
      split
      · rename_i hlt
        refine List.pairwise_cons.mpr ⟨?_, h⟩
        intro a ha
        rcases List.mem_cons.mp ha with rfl | ha
        · exact hlt
        · exact lt_trans hlt (hd a ha)
      · rename_i hnlt
        split
        · exact h
        · rename_i hne
          refine List.pairwise_cons.mpr ⟨?_, ih hds⟩
          intro a ha
          rcases mem_insertSorted.mp ha with rfl | ha
          · exact lt_of_not hnlt hne
          · exact hd a ha

end ItemCore

namespace Kernel

def ofCores : List ItemCore → Kernel
  | [] => ⟨[], .nil⟩
  | c :: cs =>
    let k := ofCores cs
    ⟨c.insertSorted k.cores, ItemCore.pairwise_insertSorted k.sorted⟩

def isEmpty (k : Kernel) : Bool := k.cores.isEmpty

@[simp] theorem mem_ofCores {a : ItemCore} {cs : List ItemCore} :
    a ∈ (ofCores cs).cores ↔ a ∈ cs := by
  induction cs with
  | nil => simp [ofCores]
  | cons c cs ih => simp [ofCores, ih]

end Kernel

def ItemSet.kernel (s : ItemSet) : Kernel :=
  .ofCores s.cores

end Lalr
