import Lalr.Symbol

/-!
Finite sets of identifiers of one kind, one bit an identifier.  The mask of a set is unique, so two
sets are equal exactly when they have the same members, however they were reached.  Since there are
only 65536 identifiers of a kind, a set can grow only so often; `room` bounds how often, and every
fixed point over sets stops because of it.
-/

namespace Lalr

/-- The number of bits that masks may use, one for every identifier. -/
def maskWidth : Nat := 65536

/-- A bound for masks: those below it have no bit beyond the last identifier. -/
def maskLimit : Nat := Nat.pow 2 maskWidth

theorem lt_pow_iff_testBit {mask width : Nat} :
    mask < Nat.pow 2 width ↔ ∀ i, width ≤ i → mask.testBit i = false :=
  ⟨fun h _ hi =>
      Nat.testBit_lt_two_pow (Nat.lt_of_lt_of_le h (Nat.pow_le_pow_right (by decide) hi)),
    Nat.lt_pow_two_of_testBit mask⟩

theorem lt_maskLimit_iff {mask : Nat} :
    mask < maskLimit ↔ ∀ i, maskWidth ≤ i → mask.testBit i = false := by
  unfold maskLimit
  generalize maskWidth = width
  exact lt_pow_iff_testBit

attribute [irreducible] maskLimit

/-- A set of identifiers: bit `i` of the mask tells whether number `i` is a member. -/
structure IdentSet (kind : Kind) where
  mask : Nat
  mask_lt : mask < maskLimit
  deriving DecidableEq

abbrev TerminalSet := IdentSet .terminal

namespace IdentSet

variable {kind : Kind}

theorem ext_mask {s t : IdentSet kind} (h : s.mask = t.mask) : s = t := by
  cases s; cases t; simpa using h

def contains (s : IdentSet kind) (a : Ident kind) : Bool :=
  s.mask.testBit a.index

instance : Membership (Ident kind) (IdentSet kind) := ⟨fun s a => s.contains a = true⟩

instance (a : Ident kind) (s : IdentSet kind) : Decidable (a ∈ s) :=
  inferInstanceAs (Decidable (s.contains a = true))

theorem mem_iff {a : Ident kind} {s : IdentSet kind} :
    a ∈ s ↔ s.mask.testBit a.index = true := Iff.rfl

@[simp] theorem contains_iff {a : Ident kind} {s : IdentSet kind} :
    s.contains a = true ↔ a ∈ s := Iff.rfl

theorem testBit_of_le (s : IdentSet kind) {i : Nat} (h : maskWidth ≤ i) :
    s.mask.testBit i = false :=
  lt_maskLimit_iff.mp s.mask_lt i h

@[ext] theorem ext_mem {s t : IdentSet kind} (h : ∀ a, a ∈ s ↔ a ∈ t) : s = t := by
  apply ext_mask
  apply Nat.eq_of_testBit_eq
  intro i
  by_cases hi : i < maskWidth
  · have := h ⟨i, hi⟩
    simp only [mem_iff] at this
    exact Bool.eq_iff_iff.mpr this
  · rw [s.testBit_of_le (by omega), t.testBit_of_le (by omega)]

def empty : IdentSet kind := ⟨0, lt_maskLimit_iff.mpr fun _ _ => Nat.zero_testBit _⟩

instance : EmptyCollection (IdentSet kind) := ⟨empty⟩

instance : Inhabited (IdentSet kind) := ⟨∅⟩

@[simp] theorem not_mem_empty (a : Ident kind) : ¬ a ∈ (∅ : IdentSet kind) := by
  change ¬ ((0 : Nat).testBit a.index = true)
  simp

def single (a : Ident kind) : IdentSet kind :=
  ⟨1 <<< a.index, lt_maskLimit_iff.mpr fun i hi => by
    have := Nat.lt_of_lt_of_le a.index_lt hi
    rw [Nat.one_shiftLeft, Nat.testBit_two_pow]
    exact decide_eq_false (Nat.ne_of_lt this)⟩

@[simp] theorem mem_single {a b : Ident kind} : a ∈ single b ↔ a = b := by
  simp only [mem_iff, single, Nat.one_shiftLeft, Nat.testBit_two_pow, decide_eq_true_eq]
  exact ⟨fun h => (Ident.ext_index h).symm, fun h => h ▸ rfl⟩

def union (s t : IdentSet kind) : IdentSet kind :=
  ⟨s.mask ||| t.mask, lt_maskLimit_iff.mpr fun i hi => by
    rw [Nat.testBit_or, s.testBit_of_le hi, t.testBit_of_le hi]
    rfl⟩

instance : Union (IdentSet kind) := ⟨union⟩

@[simp] theorem mem_union {a : Ident kind} {s t : IdentSet kind} : a ∈ s ∪ t ↔ a ∈ s ∨ a ∈ t := by
  change (s.mask ||| t.mask).testBit a.index = true ↔ _
  simp [Nat.testBit_or, mem_iff]

def inter (s t : IdentSet kind) : IdentSet kind :=
  ⟨s.mask &&& t.mask, lt_maskLimit_iff.mpr fun i hi => by
    rw [Nat.testBit_and, s.testBit_of_le hi, Bool.false_and]⟩

instance : Inter (IdentSet kind) := ⟨inter⟩

@[simp] theorem mem_inter {a : Ident kind} {s t : IdentSet kind} : a ∈ s ∩ t ↔ a ∈ s ∧ a ∈ t := by
  change (s.mask &&& t.mask).testBit a.index = true ↔ _
  simp [Nat.testBit_and, mem_iff]

def subset (s t : IdentSet kind) : Bool :=
  s.mask &&& t.mask == s.mask

def meets (s t : IdentSet kind) : Bool :=
  s.mask &&& t.mask != 0

def isEmpty (s : IdentSet kind) : Bool :=
  s.mask == 0

/-- The places of the bits of a mask that are set, in increasing order, counted from `offset`.  The
mask is taken in at most `chunks` pieces of 32 bits, so that long runs of zeros cost little. -/
def bitsFrom : (chunks offset mask : Nat) → List Nat
  | 0, _, _ => []
  | chunks + 1, offset, mask =>
    if mask = 0 then []
    else
      let low := mask &&& 0xffffffff
      ((List.range 32).filter low.testBit).map (offset + ·)
        ++ bitsFrom chunks (offset + 32) (mask >>> 32)

def toList (s : IdentSet kind) : List (Ident kind) :=
  (bitsFrom (maskWidth / 32) 0 s.mask).filterMap (Ident.ofNat? kind)

def size (s : IdentSet kind) : Nat :=
  s.toList.length

def label (s : IdentSet kind) : String :=
  "\x7b" ++ ", ".intercalate (s.toList.map Ident.label) ++ "\x7d"

def ofList (as : List (Ident kind)) : IdentSet kind :=
  as.foldl (fun s a => s ∪ single a) ∅

def insert (s : IdentSet kind) (a : Ident kind) : IdentSet kind × Bool :=
  (s ∪ single a, !s.contains a)

/-- Adds the members of `other`, and tells whether any was new. -/
def absorb (s other : IdentSet kind) : IdentSet kind × Bool :=
  if other.subset s then (s, false) else (s ∪ other, true)

theorem subset_iff {s t : IdentSet kind} : s.subset t = true ↔ ∀ a, a ∈ s → a ∈ t := by
  have : s.subset t = true ↔ s ∩ t = s := by
    simp only [subset, beq_iff_eq]
    exact ⟨fun h => ext_mask h, fun h => congrArg mask h⟩
  rw [this]
  constructor
  · intro h a ha
    rw [← h] at ha
    exact (mem_inter.mp ha).2
  · intro h
    ext a
    simp only [mem_inter]
    exact ⟨And.left, fun ha => ⟨ha, h a ha⟩⟩

/-- How far the mask is from its largest value, a bound on how often a set can still grow. -/
def room (s : IdentSet kind) : Nat :=
  maskLimit - s.mask

theorem room_union_lt {s t : IdentSet kind} (h : s ∪ t ≠ s) : (s ∪ t).room < s.room := by
  have hle : s.mask ≤ (s ∪ t).mask := Nat.left_le_or
  have hne : s.mask ≠ (s ∪ t).mask := fun e => h (ext_mask e.symm)
  have hlt := (s ∪ t).mask_lt
  unfold room
  omega

attribute [irreducible] room

theorem union_eq_left {s t : IdentSet kind} : s ∪ t = s ↔ t.subset s = true := by
  rw [subset_iff]
  constructor
  · intro h a ha
    rw [← h]
    exact mem_union.mpr (.inr ha)
  · intro h
    ext a
    simp only [mem_union]
    exact ⟨fun ha => ha.elim id (h a), .inl⟩

@[simp] theorem absorb_fst (s t : IdentSet kind) : (s.absorb t).1 = s ∪ t := by
  unfold absorb
  split
  · exact (union_eq_left.mpr ‹_›).symm
  · rfl

theorem absorb_snd {s t : IdentSet kind} : (s.absorb t).2 = true ↔ s ∪ t ≠ s := by
  rw [Ne, union_eq_left]
  unfold absorb
  split <;> simp_all

theorem room_absorb_lt {s t : IdentSet kind} (h : (s.absorb t).2 = true) :
    (s.absorb t).1.room < s.room := by
  rw [absorb_fst]
  exact room_union_lt (absorb_snd.mp h)

end IdentSet

end Lalr
