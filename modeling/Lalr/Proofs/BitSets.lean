import Mathlib.Data.Finset.Image
import Lalr.Proofs.SetHistories

/-!
Sets of identifiers over sets of natural numbers that a library provides.  The library may represent
one set in many ways, for instance with more or less room, and which of them it takes may depend on
how the set came about.  Sets of identifiers behave as finite sets nevertheless: they are compared
by two inclusions, never by their representations, and hold no number beyond the last identifier.
-/

namespace Lalr

/-- What a library of sets of natural numbers provides.  What two sets have in common is listed, not
made into a set. -/
structure BitSets (B : Type) where
  empty : B
  collect : List Nat → B
  insert : B → Nat → B × Bool
  union : B → B → B
  intersection : B → B → List Nat
  contains : B → Nat → Bool
  len : B → Nat
  isEmpty : B → Bool
  isSubset : B → B → Bool
  isDisjoint : B → B → Bool
  iter : B → List Nat

namespace BitSets

variable {B : Type} {kind : Kind} {bits : BitSets B} {members : B → Finset Nat} {b c : B}
  {M N : Finset (Ident kind)}

/-- The library implements sets of natural numbers.  What a value stands for is its `members`, and
two values may stand for one set. -/
structure Lawful (bits : BitSets B) (members : B → Finset Nat) : Prop where
  empty : members bits.empty = ∅
  collect : ∀ ns, members (bits.collect ns) = ns.toFinset
  insert : ∀ b n, members (bits.insert b n).1 = Insert.insert n (members b)
  insert_isNew : ∀ b n, (bits.insert b n).2 = true ↔ n ∉ members b
  union : ∀ b c, members (bits.union b c) = members b ∪ members c
  mem_intersection : ∀ b c n, n ∈ bits.intersection b c ↔ n ∈ members b ∧ n ∈ members c
  contains : ∀ b n, bits.contains b n = true ↔ n ∈ members b
  len : ∀ b, bits.len b = (members b).card
  isEmpty : ∀ b, bits.isEmpty b = true ↔ members b = ∅
  isSubset : ∀ b c, bits.isSubset b c = true ↔ members b ⊆ members c
  isDisjoint : ∀ b c, bits.isDisjoint b c = true ↔ Disjoint (members b) (members c)
  sorted : ∀ b, (bits.iter b).Pairwise (· < ·)
  mem_iter : ∀ b n, n ∈ bits.iter b ↔ n ∈ members b

def absorb (bits : BitSets B) (b c : B) : B × Bool :=
  if bits.isSubset c b then (b, false) else (bits.union b c, true)

def operations (bits : BitSets B) (kind : Kind) : SetOperations kind B where
  empty := bits.empty
  ofList as := bits.collect (as.map Ident.index)
  insert b a := bits.insert b a.index
  absorb := bits.absorb
  inter b c := bits.collect (bits.intersection b c)
  contains b a := bits.contains b a.index
  size := bits.len
  isEmpty := bits.isEmpty
  subset := bits.isSubset
  meets b c := !bits.isDisjoint b c
  same b c := bits.isSubset b c && bits.isSubset c b
  toList b := (bits.iter b).map (Ident.truncate kind)

def HasNumbers (members : B → Finset Nat) (b : B) (M : Finset (Ident kind)) : Prop :=
  members b = M.image Ident.index

namespace Lawful

theorem members_absorb (h : bits.Lawful members) (b c : B) :
    members (bits.absorb b c).1 = members b ∪ members c := by
  unfold absorb
  split
  · rename_i hsubset
    exact (Finset.union_eq_left.mpr ((h.isSubset c b).mp hsubset)).symm
  · exact h.union b c

theorem absorb_snd (h : bits.Lawful members) (b c : B) :
    (bits.absorb b c).2 = true ↔ ¬ members c ⊆ members b := by
  rw [← h.isSubset c b]
  unfold absorb
  split <;> simp_all

theorem pairwise_toList (h : bits.Lawful members) (hb : HasNumbers members b M) :
    ((bits.operations kind).toList b).Pairwise (· < ·) := by
  refine List.pairwise_map.mpr ((h.sorted b).imp_of_mem fun {m n} hm hn hlt => ?_)
  rw [h.mem_iter, hb, Finset.mem_image] at hm hn
  obtain ⟨x, -, rfl⟩ := hm
  obtain ⟨y, -, rfl⟩ := hn
  rwa [Ident.truncate_index, Ident.truncate_index]

theorem mem_toList (h : bits.Lawful members) (hb : HasNumbers members b M) (a : Ident kind) :
    a ∈ (bits.operations kind).toList b ↔ a ∈ M := by
  change a ∈ (bits.iter b).map (Ident.truncate kind) ↔ _
  simp only [List.mem_map, h.mem_iter, show members b = _ from hb, Finset.mem_image]
  constructor
  · rintro ⟨-, ⟨x, hx, rfl⟩, rfl⟩
    rwa [Ident.truncate_index]
  · intro ha
    exact ⟨a.index, ⟨a, ha, rfl⟩, Ident.truncate_index a⟩

theorem shows (h : bits.Lawful members) (hb : HasNumbers members b M) :
    (bits.operations kind).Shows b M where
  contains a := by
    change bits.contains b a.index = true ↔ _
    rw [h.contains, hb, Ident.index_injective.mem_finset_image]
  size := by
    change bits.len b = _
    rw [h.len, hb, Finset.card_image_of_injective _ Ident.index_injective]
  isEmpty := by
    change bits.isEmpty b = true ↔ _
    rw [h.isEmpty, hb, Finset.image_eq_empty]
  sorted := h.pairwise_toList hb
  mem_toList := h.mem_toList hb
  insert_grows a := by
    change (bits.insert b a.index).2 = true ↔ _
    rw [h.insert_isNew, hb, Ident.index_injective.mem_finset_image, ssubset_insert_self_iff]

theorem isSubset_iff (h : bits.Lawful members) (hb : HasNumbers members b M)
    (hc : HasNumbers members c N) : bits.isSubset b c = true ↔ M ⊆ N := by
  rw [h.isSubset, hb, hc, Finset.image_subset_image_iff Ident.index_injective]

theorem compares (h : bits.Lawful members) (hb : HasNumbers members b M)
    (hc : HasNumbers members c N) : (bits.operations kind).Compares b c M N where
  subset := h.isSubset_iff hb hc
  meets := by
    change (!bits.isDisjoint b c) = true ↔ _
    rw [Bool.not_eq_true', ← Bool.not_eq_true, h.isDisjoint, hb, hc,
      Finset.disjoint_image Ident.index_injective, Finset.not_disjoint_iff_nonempty_inter]
  same := by
    change (bits.isSubset b c && bits.isSubset c b) = true ↔ _
    rw [Bool.and_eq_true, h.isSubset_iff hb hc, h.isSubset_iff hc hb]
    exact Finset.Subset.antisymm_iff.symm
  absorb_grows := by
    change (bits.absorb b c).2 = true ↔ _
    rw [h.absorb_snd, ← h.isSubset, h.isSubset_iff hc hb, ssubset_union_left_iff]

theorem implements (h : bits.Lawful members) (kind : Kind) :
    (bits.operations kind).Implements (HasNumbers members) where
  empty := h.empty
  ofList as := by
    change members (bits.collect (as.map Ident.index)) = _
    rw [h.collect]
    ext n
    simp
  insert {b M} hb a := by
    change members (bits.insert b a.index).1 = _
    rw [h.insert, hb, Finset.image_insert]
  absorb {b c M N} hb hc := by
    change members (bits.absorb b c).1 = _
    rw [h.members_absorb, hb, hc, Finset.image_union]
  inter {b c M N} hb hc := by
    change members (bits.collect (bits.intersection b c)) = _
    rw [h.collect, Finset.image_inter _ _ Ident.index_injective, ← hb, ← hc]
    ext n
    rw [List.mem_toFinset, h.mem_intersection, Finset.mem_inter]
  shows := h.shows
  compares := h.compares

end Lawful

end BitSets

/-- A set of natural numbers as a vector of bits.  Bits beyond the end count as not set, and how long
the vector is depends on the order in which numbers were inserted. -/
abbrev BitVector := List Bool

namespace BitVector

variable {b c : BitVector} {m n : Nat}

def holds (b : BitVector) (n : Nat) : Bool :=
  b.getD n false

def grow (b : BitVector) (length : Nat) : BitVector :=
  b ++ List.replicate (length - b.length) false

/-- Sets one bit.  If it is beyond the end, the vector becomes at least twice as long. -/
def put (b : BitVector) (n : Nat) : BitVector :=
  if n < b.length then b.set n true else (b.grow (max (n + 1) (2 * b.length))).set n true

def insertBit (b : BitVector) (n : Nat) : BitVector × Bool :=
  if b.holds n then (b, false) else (b.put n, true)

def merge (b c : BitVector) : BitVector :=
  (b.grow c.length).mapIdx fun n bit => bit || c.holds n

def listed (b : BitVector) : List Nat :=
  (List.range b.length).filter b.holds

def members (b : BitVector) : Finset Nat :=
  b.listed.toFinset

def sets : BitSets BitVector where
  empty := []
  collect ns := ns.foldl (fun b n => (b.insertBit n).1) []
  insert := insertBit
  union := merge
  intersection b c := b.listed.filter c.holds
  contains := holds
  len b := b.listed.length
  isEmpty b := b.listed.isEmpty
  isSubset b c := b.listed.all c.holds
  isDisjoint b c := b.listed.all fun n => !c.holds n
  iter := listed

theorem lt_of_holds (h : b.holds n = true) : n < b.length := by
  by_contra hn
  rw [holds, List.getD_eq_getElem?_getD, List.getElem?_eq_none (Nat.not_lt.mp hn)] at h
  cases h

theorem mem_listed : n ∈ b.listed ↔ b.holds n = true := by
  rw [listed, List.mem_filter, List.mem_range]
  exact and_iff_right_of_imp lt_of_holds

theorem pairwise_listed (b : BitVector) : b.listed.Pairwise (· < ·) :=
  List.pairwise_lt_range.filter _

theorem mem_members : n ∈ b.members ↔ b.holds n = true := by
  rw [members, List.mem_toFinset, mem_listed]

theorem holds_grow (b : BitVector) (length n : Nat) : (b.grow length).holds n = b.holds n := by
  simp only [holds, grow, List.getD_eq_getElem?_getD, List.getElem?_append,
    List.getElem?_replicate]
  split
  · rfl
  · rename_i hn
    rw [List.getElem?_eq_none (Nat.not_lt.mp hn)]
    split <;> rfl

theorem lt_length_grow {length : Nat} (h : n < length) : n < (b.grow length).length := by
  rw [grow, List.length_append, List.length_replicate]
  omega

theorem holds_set (h : n < b.length) :
    holds (b.set n true) m = true ↔ m = n ∨ b.holds m = true := by
  simp only [holds, List.getD_eq_getElem?_getD, List.getElem?_set]
  by_cases hm : n = m
  · subst hm
    simp [h]
  · simp [hm, Ne.symm hm]

theorem holds_put : (b.put n).holds m = true ↔ m = n ∨ b.holds m = true := by
  unfold put
  split
  · rename_i hlt
    exact holds_set hlt
  · rw [holds_set (lt_length_grow (Nat.lt_of_lt_of_le (Nat.lt_succ_self n) (Nat.le_max_left _ _))),
      holds_grow]

theorem members_insertBit (b : BitVector) (n : Nat) :
    (b.insertBit n).1.members = Insert.insert n b.members := by
  ext m
  rw [Finset.mem_insert, mem_members, mem_members, insertBit]
  split
  · rename_i hholds
    exact (or_iff_right_of_imp fun hm => hm ▸ hholds).symm
  · exact holds_put

theorem holds_merge (b c : BitVector) (n : Nat) :
    (b.merge c).holds n = (b.holds n || c.holds n) := by
  rw [← holds_grow b c.length n]
  by_cases hn : n < (b.grow c.length).length
  · simp [merge, holds, List.getD_eq_getElem?_getD, hn]
  · have hc : c.holds n = false :=
      Bool.eq_false_iff.mpr fun h => hn (lt_length_grow (lt_of_holds h))
    rw [hc, Bool.or_false]
    simp [merge, holds, List.getD_eq_getElem?_getD, hn]

theorem members_merge (b c : BitVector) : (b.merge c).members = b.members ∪ c.members := by
  ext n
  rw [Finset.mem_union, mem_members, mem_members, mem_members, holds_merge, Bool.or_eq_true]

theorem members_collect (ns : List Nat) (b : BitVector) :
    (ns.foldl (fun b n => (b.insertBit n).1) b).members = b.members ∪ ns.toFinset := by
  induction ns generalizing b with
  | nil => simp
  | cons n ns ih =>
      rw [List.foldl_cons, ih, members_insertBit, List.toFinset_cons, Finset.insert_union,
        Finset.union_insert]

theorem lawful_sets : sets.Lawful members where
  empty := rfl
  collect ns := (members_collect ns []).trans (Finset.empty_union _)
  insert := members_insertBit
  insert_isNew b n := by
    change (b.insertBit n).2 = true ↔ _
    rw [mem_members, insertBit]
    split <;> simp_all
  union := members_merge
  mem_intersection b c n := by
    change n ∈ b.listed.filter c.holds ↔ _
    rw [List.mem_filter, mem_listed, mem_members, mem_members]
  contains b n := mem_members.symm
  len b := (List.toFinset_card_of_nodup b.pairwise_listed.nodup).symm
  isEmpty b := by
    change b.listed.isEmpty = true ↔ _
    rw [List.isEmpty_iff, members, List.toFinset_eq_empty_iff]
  isSubset b c := by
    change b.listed.all c.holds = true ↔ _
    simp only [List.all_eq_true, mem_listed, Finset.subset_iff, mem_members]
  isDisjoint b c := by
    change (b.listed.all fun n => !c.holds n) = true ↔ _
    simp only [List.all_eq_true, mem_listed, Finset.disjoint_left, mem_members, Bool.not_eq_true',
      Bool.not_eq_true]
  sorted := pairwise_listed
  mem_iter b n := mem_listed.trans mem_members.symm

end BitVector

/-- Registers that hold sets of identifiers behave as finite sets.  So do registers over any library
that implements sets of natural numbers, however it represents them. -/
theorem IdentSet.faithful_operations (kind : Kind) :
    (operations kind).Faithful ∧
      ∀ {B : Type} {bits : BitSets B} {members : B → Finset Nat}, bits.Lawful members →
        (bits.operations kind).Faithful :=
  ⟨(implements_operations kind).faithful, fun h => (h.implements kind).faithful⟩

/-- One set has two vectors of different lengths, since its members came in another order.  The
lengths do not show, and the third register, made from both, holds the same set again. -/
theorem IdentSet.faithful_operations_bitVectors :
    let x : TerminalId := { index := 2 }
    let y : TerminalId := { index := 3 }
    let steps : List (SetStep .terminal Nat) := [.assign 0 [x], .insert 0 y, .assign 1 [y, x],
      .assign 2 [{ index := 5 }], .absorb 2 0, .inter 2 1]
    let ops := BitVector.sets.operations .terminal
    let sets := ops.registers steps
    BitVector.sets.Lawful BitVector.members ∧
      (sets 0).length = 6 ∧ (sets 1).length = 4 ∧ ops.same (sets 0) (sets 1) = true ∧
      (ops.absorb (sets 1) (sets 0)).2 = false ∧
      ops.size (sets 2) = 2 ∧ ops.same (sets 2) (sets 1) = true := by
  intro x y steps ops sets
  have hfaithful : ops.Faithful :=
    (IdentSet.faithful_operations .terminal).2 BitVector.lawful_sets
  have hcontents : SetStep.contents steps 0 = SetStep.contents steps 1 := by decide
  have hcontents' : SetStep.contents steps 2 = SetStep.contents steps 1 := by decide
  obtain ⟨-, hcompares⟩ := hfaithful steps steps 0 1
  obtain ⟨-, hcompares'⟩ := hfaithful steps steps 1 0
  obtain ⟨hshows, hcompares''⟩ := hfaithful steps steps 2 1
  have hstays : (ops.absorb (sets 1) (sets 0)).2 = false := by
    rw [← Bool.not_eq_true, hcompares'.absorb_grows, hcontents, Finset.union_self]
    exact fun h => h.ne rfl
  exact ⟨BitVector.lawful_sets, by decide, by decide, hcompares.same.mpr hcontents, hstays,
    hshows.size.trans (by decide), hcompares''.same.mpr hcontents'⟩

end Lalr
