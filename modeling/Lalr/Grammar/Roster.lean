import Std.Data.TreeSet

namespace Lalr

structure Roster (α : Type) (nameOf : α → String) where
  entries : Array α
  names : Std.TreeSet String
  mem_names : ∀ name, name ∈ names ↔ ∃ a ∈ entries, nameOf a = name

namespace Roster

variable {α : Type} {nameOf : α → String}

def empty : Roster α nameOf := ⟨#[], ∅, by simp⟩

def size (r : Roster α nameOf) : Nat := r.entries.size

def uses (r : Roster α nameOf) (name : String) : Bool := r.names.contains name

theorem uses_iff {r : Roster α nameOf} {name : String} :
    r.uses name = true ↔ ∃ a ∈ r.entries, nameOf a = name := by
  rw [← r.mem_names]
  exact Std.TreeSet.contains_iff_mem

def push (r : Roster α nameOf) (a : α) : Roster α nameOf where
  entries := r.entries.push a
  names := r.names.insert (nameOf a)
  mem_names name := by
    simp only [Std.TreeSet.mem_insert, r.mem_names, Array.mem_push, Std.compare_eq_iff_eq]
    grind

@[simp] theorem size_push (r : Roster α nameOf) (a : α) : (r.push a).size = r.size + 1 :=
  Array.size_push _

def modify (r : Roster α nameOf) (i : Nat) (f : α → α) (keeps : ∀ a, nameOf (f a) = nameOf a) :
    Roster α nameOf where
  entries := r.entries.modify i f
  names := r.names
  mem_names name := by
    rw [r.mem_names]
    simp only [Array.mem_iff_getElem?, Array.getElem?_modify]
    constructor
    · rintro ⟨a, ⟨j, hj⟩, hname⟩
      by_cases hij : i = j
      · exact ⟨f a, ⟨j, by simp [hij, hj]⟩, by rw [keeps, hname]⟩
      · exact ⟨a, ⟨j, by simp [hij, hj]⟩, hname⟩
    · rintro ⟨b, ⟨j, hj⟩, hname⟩
      by_cases hij : i = j
      · rw [if_pos hij, Option.map_eq_some_iff] at hj
        obtain ⟨a, ha, rfl⟩ := hj
        exact ⟨a, ⟨j, ha⟩, by rw [← keeps, hname]⟩
      · rw [if_neg hij] at hj
        exact ⟨b, ⟨j, hj⟩, hname⟩

@[simp] theorem size_modify (r : Roster α nameOf) (i : Nat) (f : α → α)
    (keeps : ∀ a, nameOf (f a) = nameOf a) : (r.modify i f keeps).size = r.size :=
  Array.size_modify

end Roster

end Lalr
