import Mathlib.Data.Finset.Card
import Lalr.Proofs.IdentSets

namespace Lalr

variable {kind : Kind} {S R : Type}

/-- What a type of sets of identifiers offers.  To insert and to absorb also tells whether the set
has grown. -/
structure SetOperations (kind : Kind) (S : Type) where
  empty : S
  ofList : List (Ident kind) → S
  insert : S → Ident kind → S × Bool
  absorb : S → S → S × Bool
  inter : S → S → S
  contains : S → Ident kind → Bool
  size : S → Nat
  isEmpty : S → Bool
  subset : S → S → Bool
  meets : S → S → Bool
  same : S → S → Bool
  toList : S → List (Ident kind)

/-- A step over registers.  It changes the first of those it names. -/
inductive SetStep (kind : Kind) (R : Type) where
  | assign (r : R) (as : List (Ident kind))
  | insert (r : R) (a : Ident kind)
  | absorb (r other : R)
  | inter (r other : R)
  | clear (r : R)

namespace SetStep

variable [DecidableEq R]

def run (ops : SetOperations kind S) (sets : R → S) : SetStep kind R → R → S
  | assign r as => Function.update sets r (ops.ofList as)
  | insert r a => Function.update sets r (ops.insert (sets r) a).1
  | absorb r other => Function.update sets r (ops.absorb (sets r) (sets other)).1
  | inter r other => Function.update sets r (ops.inter (sets r) (sets other))
  | clear r => Function.update sets r ops.empty

def effect (contents : R → Finset (Ident kind)) : SetStep kind R → R → Finset (Ident kind)
  | assign r as => Function.update contents r as.toFinset
  | insert r a => Function.update contents r (Insert.insert a (contents r))
  | absorb r other => Function.update contents r (contents r ∪ contents other)
  | inter r other => Function.update contents r (contents r ∩ contents other)
  | clear r => Function.update contents r ∅

def contents (steps : List (SetStep kind R)) : R → Finset (Ident kind) :=
  steps.foldl effect fun _ => ∅

end SetStep

namespace SetOperations

variable {ops : SetOperations kind S} {Stands : S → Finset (Ident kind) → Prop}

def registers [DecidableEq R] (ops : SetOperations kind S) (steps : List (SetStep kind R)) :
    R → S :=
  steps.foldl (SetStep.run ops) fun _ => ops.empty

/-- All that can be asked about one set is answered as for the finite set `M`. -/
structure Shows (ops : SetOperations kind S) (s : S) (M : Finset (Ident kind)) : Prop where
  contains : ∀ a, ops.contains s a = true ↔ a ∈ M
  size : ops.size s = M.card
  isEmpty : ops.isEmpty s = true ↔ M = ∅
  sorted : (ops.toList s).Pairwise (· < ·)
  mem_toList : ∀ a, a ∈ ops.toList s ↔ a ∈ M
  insert_grows : ∀ a, (ops.insert s a).2 = true ↔ M ⊂ Insert.insert a M

/-- All that can be asked about two sets is answered as for the finite sets `M` and `N`. -/
structure Compares (ops : SetOperations kind S) (s t : S) (M N : Finset (Ident kind)) :
    Prop where
  subset : ops.subset s t = true ↔ M ⊆ N
  meets : ops.meets s t = true ↔ (M ∩ N).Nonempty
  same : ops.same s t = true ↔ M = N
  absorb_grows : (ops.absorb s t).2 = true ↔ M ⊂ M ∪ N

/-- Registers behave as finite sets, after any steps and whatever steps led to the set that one of
them is compared with. -/
def Faithful (ops : SetOperations kind S) : Prop :=
  ∀ {R : Type} [DecidableEq R] (steps others : List (SetStep kind R)) (r q : R),
    ops.Shows (ops.registers steps r) (SetStep.contents steps r) ∧
      ops.Compares (ops.registers steps r) (ops.registers others q)
        (SetStep.contents steps r) (SetStep.contents others q)

/-- Each operation by itself keeps to the finite sets that its arguments stand for. -/
structure Implements (ops : SetOperations kind S) (Stands : S → Finset (Ident kind) → Prop) :
    Prop where
  empty : Stands ops.empty ∅
  ofList : ∀ as, Stands (ops.ofList as) as.toFinset
  insert : ∀ {s M}, Stands s M → ∀ a, Stands (ops.insert s a).1 (Insert.insert a M)
  absorb : ∀ {s t M N}, Stands s M → Stands t N → Stands (ops.absorb s t).1 (M ∪ N)
  inter : ∀ {s t M N}, Stands s M → Stands t N → Stands (ops.inter s t) (M ∩ N)
  shows : ∀ {s M}, Stands s M → ops.Shows s M
  compares : ∀ {s t M N}, Stands s M → Stands t N → ops.Compares s t M N

theorem stands_update [DecidableEq R] {sets : R → S} {contents : R → Finset (Ident kind)}
    (h : ∀ q, Stands (sets q) (contents q)) {s : S} {M : Finset (Ident kind)} (hs : Stands s M)
    (r q : R) : Stands (Function.update sets r s q) (Function.update contents r M q) := by
  by_cases hq : q = r
  · subst hq
    rwa [Function.update_self, Function.update_self]
  · rw [Function.update_of_ne hq, Function.update_of_ne hq]
    exact h q

namespace Implements

theorem stands_run [DecidableEq R] (h : ops.Implements Stands) {sets : R → S}
    {contents : R → Finset (Ident kind)} (hstands : ∀ q, Stands (sets q) (contents q))
    (step : SetStep kind R) (q : R) : Stands (step.run ops sets q) (step.effect contents q) := by
  cases step with
  | assign r as => exact stands_update hstands (h.ofList as) r q
  | insert r a => exact stands_update hstands (h.insert (hstands r) a) r q
  | absorb r other => exact stands_update hstands (h.absorb (hstands r) (hstands other)) r q
  | inter r other => exact stands_update hstands (h.inter (hstands r) (hstands other)) r q
  | clear r => exact stands_update hstands h.empty r q

theorem stands_foldl [DecidableEq R] (h : ops.Implements Stands) (steps : List (SetStep kind R))
    {sets : R → S} {contents : R → Finset (Ident kind)}
    (hstands : ∀ q, Stands (sets q) (contents q)) (q : R) :
    Stands (steps.foldl (SetStep.run ops) sets q) (steps.foldl SetStep.effect contents q) := by
  induction steps generalizing sets contents with
  | nil => exact hstands q
  | cons step steps ih => exact ih (h.stands_run hstands step)

theorem faithful (h : ops.Implements Stands) : ops.Faithful := by
  intro R _ steps others r q
  have hstands : ∀ (steps : List (SetStep kind R)) (r : R),
      Stands (ops.registers steps r) (SetStep.contents steps r) :=
    fun steps => h.stands_foldl steps fun _ => h.empty
  exact ⟨h.shows (hstands steps r), h.compares (hstands steps r) (hstands others q)⟩

end Implements

end SetOperations

theorem ssubset_insert_self_iff {M : Finset (Ident kind)} {a : Ident kind} :
    M ⊂ insert a M ↔ a ∉ M := by
  constructor
  · intro h ha
    rw [Finset.insert_eq_of_mem ha] at h
    exact h.ne rfl
  · exact Finset.ssubset_insert

theorem ssubset_union_left_iff {M N : Finset (Ident kind)} : M ⊂ M ∪ N ↔ ¬ N ⊆ M :=
  left_lt_sup

namespace IdentSet

variable {s t : IdentSet kind} {M N : Finset (Ident kind)}

def operations (kind : Kind) : SetOperations kind (IdentSet kind) where
  empty := ∅
  ofList := ofList
  insert := insert
  absorb := absorb
  inter := (· ∩ ·)
  contains := contains
  size := size
  isEmpty := isEmpty
  subset := subset
  meets := meets
  same s t := decide (s = t)
  toList := toList

def HasMembers (s : IdentSet kind) (M : Finset (Ident kind)) : Prop :=
  ∀ a, a ∈ s ↔ a ∈ M

theorem HasMembers.size_eq (h : s.HasMembers M) : s.size = M.card := by
  have hset : s.toList.toFinset = M := by
    ext a
    rw [List.mem_toFinset, mem_toList, h a]
  rw [← hset, List.toFinset_card_of_nodup s.pairwise_toList.nodup, size]

theorem HasMembers.shows (h : s.HasMembers M) : (operations kind).Shows s M where
  contains := h
  size := h.size_eq
  isEmpty := by
    change s.isEmpty = true ↔ _
    simp only [isEmpty_iff, h _, Finset.eq_empty_iff_forall_notMem]
  sorted := s.pairwise_toList
  mem_toList a := mem_toList.trans (h a)
  insert_grows a := by
    change (!s.contains a) = true ↔ _
    rw [ssubset_insert_self_iff, ← h a, ← contains_iff, Bool.not_eq_true', Bool.not_eq_true]

theorem HasMembers.compares (hs : s.HasMembers M) (ht : t.HasMembers N) :
    (operations kind).Compares s t M N where
  subset := by
    change s.subset t = true ↔ _
    simp only [subset_iff, hs _, ht _, Finset.subset_iff]
  meets := by
    change s.meets t = true ↔ _
    simp only [meets_iff, hs _, ht _, Finset.Nonempty, Finset.mem_inter]
  same := by
    change decide (s = t) = true ↔ _
    rw [decide_eq_true_eq, Finset.ext_iff]
    constructor
    · rintro rfl a
      rw [← hs a, ht a]
    · intro h
      ext a
      rw [hs a, ht a, h a]
  absorb_grows := by
    change (s.absorb t).2 = true ↔ _
    rw [absorb_snd, Ne, union_eq_left, ssubset_union_left_iff, subset_iff]
    simp only [hs _, ht _, Finset.subset_iff]

theorem implements_operations (kind : Kind) : (operations kind).Implements HasMembers where
  empty a := by simp [operations]
  ofList as a := by
    change a ∈ ofList as ↔ _
    rw [mem_ofList, List.mem_toFinset]
  insert {s M} h a b := by
    change b ∈ s ∪ single a ↔ _
    rw [mem_union, mem_single, h b, Finset.mem_insert, or_comm]
  absorb {s t M N} hs ht a := by
    change a ∈ (s.absorb t).1 ↔ _
    rw [absorb_fst, mem_union, hs a, ht a, Finset.mem_union]
  inter {s t M N} hs ht a := by
    change a ∈ s ∩ t ↔ _
    rw [mem_inter, hs a, ht a, Finset.mem_inter]
  shows := HasMembers.shows
  compares := HasMembers.compares

end IdentSet

end Lalr
