import Mathlib.Data.List.Pairwise
import Std.Data.String.ToNat
import Lalr.Proofs.Registries

namespace Lalr

theorem exists_find?_name {α : Type} {nameOf : α → String} {R : α → α → Prop} {entries : List α}
    (h : entries.Pairwise R) {a : α} (ha : a ∈ entries) :
    ∃ first ∈ entries, entries.find? (nameOf · == nameOf a) = some first ∧
      nameOf first = nameOf a ∧ (first = a ∨ R first a) := by
  induction entries with
  | nil => cases ha
  | cons b entries ih =>
      rw [List.find?_cons]
      by_cases hb : nameOf b = nameOf a
      · refine ⟨b, List.mem_cons_self, by simp [hb], hb, ?_⟩
        rcases List.mem_cons.mp ha with rfl | ha
        · exact .inl rfl
        · exact .inr (List.rel_of_pairwise_cons h ha)
      · rcases List.mem_cons.mp ha with rfl | ha
        · exact absurd rfl hb
        · obtain ⟨first, hfirst, hfind, hrest⟩ := ih h.of_cons ha
          refine ⟨first, List.mem_cons_of_mem _ hfirst, ?_, hrest⟩
          rwa [beq_false_of_ne hb]

namespace Roster

variable {α β : Type} {nameOf : α → String}

def keys (r : Roster α nameOf) (key : α → β) : List β :=
  r.entries.toList.map key

theorem keys_push (r : Roster α nameOf) (a : α) (key : α → β) :
    (r.push a).keys key = r.keys key ++ [key a] := by
  rw [keys, push, Array.toList_push, List.map_append]
  rfl

theorem keys_modify (r : Roster α nameOf) (i : Nat) {f : α → α}
    (keeps : ∀ a, nameOf (f a) = nameOf a)
    {key : α → β} (hkey : ∀ a, key (f a) = key a) : (r.modify i f keeps).keys key = r.keys key := by
  apply List.ext_getElem?
  intro j
  simp only [keys, modify, List.getElem?_map, Array.getElem?_toList, Array.getElem?_modify]
  split
  · rw [Option.map_map]
    exact congrArg (Option.map · _) (funext hkey)
  · rfl

theorem name_ne_of_fresh {r : Roster α nameOf} {name : String} (h : r.uses name = false) {a : α}
    (ha : a ∈ r.entries.toList) : nameOf a ≠ name := by
  rw [← Bool.not_eq_true, uses_iff] at h
  exact fun heq => h ⟨a, Array.mem_toList_iff.mp ha, heq⟩

theorem toList_map_mapIdx {γ : Type} (r : Roster α nameOf) {f : Nat → α → β} {key : α → γ}
    {key' : β → γ} (hf : ∀ i a, key' (f i a) = key a) :
    (r.entries.mapIdx f).toList.map key' = r.keys key := by
  apply List.ext_getElem?
  intro j
  simp only [keys, List.getElem?_map, Array.getElem?_toList, Array.getElem?_mapIdx, Option.map_map]
  exact congrArg (Option.map · _) (funext (hf j))

end Roster

/-- What of a nonterminal decides whether its name may occur again. -/
structure Label where
  name : String
  hidden : Bool

/-- A name comes twice only if it was declared first and taken by a hidden nonterminal later. -/
def Label.Before (a b : Label) : Prop :=
  a.name = b.name → a.hidden = false ∧ b.hidden = true

namespace Draft

def hiddenName (k : Nat) : String :=
  "NT$" ++ toString k

theorem hiddenName_injective {j k : Nat} (h : hiddenName j = hiddenName k) : j = k :=
  Nat.repr_injective ((String.append_right_inj _).mp h)

end Draft

/-- Labels in the order in which a draft makes them, while `made` hidden nonterminals are made. -/
structure Labelled (labels : List Label) (made : Nat) : Prop where
  before : labels.Pairwise Label.Before
  hidden : ∀ label ∈ labels, label.hidden = true → ∃ k < made, label.name = Draft.hiddenName k

theorem Labelled.declare {labels : List Label} {made : Nat} (h : Labelled labels made)
    {name : String} (fresh : ∀ label ∈ labels, label.name ≠ name) :
    Labelled (labels ++ [⟨name, false⟩]) made := by
  constructor
  · refine List.pairwise_append.mpr ⟨h.before, List.pairwise_singleton .., ?_⟩
    intro label hlabel new hnew heq
    obtain rfl := List.mem_singleton.mp hnew
    exact absurd heq (fresh label hlabel)
  · intro label hlabel htrue
    rcases List.mem_append.mp hlabel with hlabel | hlabel
    · exact h.hidden label hlabel htrue
    · obtain rfl := List.mem_singleton.mp hlabel
      cases htrue

theorem Labelled.host {labels : List Label} {made : Nat} (h : Labelled labels made) :
    Labelled (labels ++ [⟨Draft.hiddenName made, true⟩]) (made + 1) := by
  constructor
  · refine List.pairwise_append.mpr ⟨h.before, List.pairwise_singleton .., ?_⟩
    intro label hlabel new hnew heq
    obtain rfl := List.mem_singleton.mp hnew
    refine ⟨Bool.eq_false_iff.mpr fun htrue => ?_, rfl⟩
    -- Two hidden nonterminals would have the same number.
    obtain ⟨k, hk, hname⟩ := h.hidden label hlabel htrue
    exact absurd (Draft.hiddenName_injective (hname.symm.trans heq)) (Nat.ne_of_lt hk)
  · intro label hlabel htrue
    rcases List.mem_append.mp hlabel with hlabel | hlabel
    · obtain ⟨k, hk, hname⟩ := h.hidden label hlabel htrue
      exact ⟨k, Nat.lt_succ_of_lt hk, hname⟩
    · obtain rfl := List.mem_singleton.mp hlabel
      exact ⟨made, Nat.lt_succ_self _, rfl⟩

def NonterminalDecl.label (n : NonterminalDecl) : Label :=
  ⟨n.name, n.hidden⟩

namespace Draft

/-- The names in a draft: those of terminals differ, and those of nonterminals do but for hidden
ones, whose names are numbered. -/
structure Named (d : Draft) : Prop where
  terminals : (d.terminals.keys (·.name)).Nodup
  nonterminals : Labelled (d.nonterminals.keys NonterminalDecl.label) d.embedded

theorem named_declareAll (declarations : List Declaration) :
    (initial.declareAll declarations).Named := by
  refine declareAll_induction (motive := Named) ?_ ?_ declarations
  · exact ⟨by decide, List.pairwise_singleton .., by decide⟩
  · intro d d' _ step h
    cases step with
    | terminal fresh _ =>
        refine { h with terminals := ?_ }
        rw [Roster.keys_push, List.nodup_append]
        refine ⟨h.terminals, List.pairwise_singleton .., ?_⟩
        intro old hold new hnew
        obtain rfl := List.mem_singleton.mp hnew
        obtain ⟨decl, hdecl, rfl⟩ := List.mem_map.mp hold
        exact Roster.name_ne_of_fresh fresh hdecl
    | nonterminal fresh _ =>
        refine { h with nonterminals := ?_ }
        rw [Roster.keys_push]
        refine h.nonterminals.declare fun label hlabel => ?_
        obtain ⟨decl, hdecl, rfl⟩ := List.mem_map.mp hlabel
        exact Roster.name_ne_of_fresh fresh hdecl
    | host _ =>
        refine { h with nonterminals := ?_ }
        rw [Roster.keys_push]
        exact h.nonterminals.host
    | terminalType t type =>
        refine { h with terminals := ?_ }
        rw [Roster.keys_modify]
        · exact h.terminals
        · exact fun _ => rfl
    | nonterminalType n type =>
        refine { h with nonterminals := ?_ }
        rw [Roster.keys_modify]
        · exact h.nonterminals
        · exact fun _ => rfl
    | precedence t p =>
        refine { h with terminals := ?_ }
        rw [Roster.keys_modify]
        · exact h.terminals
        · exact fun _ => rfl
    | _ => exact { h with }

end Draft

namespace Grammar

/-- A hidden nonterminal that has the name of a declared one. -/
def Shadowed (g : Grammar) (n : Nonterminal) : Prop :=
  n.hidden = true ∧ ∃ n' ∈ g.nonterminals, n'.hidden = false ∧ n'.name = n.name

/-- What names say in a grammar.  They are unique among the terminals, among the declared
nonterminals and among the hidden ones, and a symbol is found by its name unless it is shadowed. -/
structure Named (g : Grammar) : Prop where
  terminal_unique : ∀ t ∈ g.terminals, ∀ t' ∈ g.terminals, t.name = t'.name → t.id = t'.id
  nonterminal_unique : ∀ n ∈ g.nonterminals, ∀ n' ∈ g.nonterminals, n.hidden = n'.hidden →
    n.name = n'.name → n.id = n'.id
  hidden_name : ∀ n ∈ g.nonterminals, n.hidden = true → ∃ k, n.name = Draft.hiddenName k
  terminalNamed? : ∀ t ∈ g.terminals, g.terminalNamed? t.name = some t.id
  nonterminalNamed? : ∀ n ∈ g.nonterminals,
    (g.nonterminalNamed? n.name = some n.id ↔ ¬ g.Shadowed n)

theorem pairwise_terminals {d : Draft} (h : d.Named) (start : NonterminalId) :
    (d.grammar start).terminals.toList.Pairwise fun t t' => t.name ≠ t'.name := by
  have hnames : (d.grammar start).terminals.toList.map (·.name) = d.terminals.keys (·.name) :=
    d.terminals.toList_map_mapIdx fun _ _ => rfl
  rw [← List.pairwise_map (f := fun t : Terminal => t.name), hnames]
  exact h.terminals

theorem pairwise_nonterminals {d : Draft} (h : d.Named) (start : NonterminalId) :
    (d.grammar start).nonterminals.toList.Pairwise fun n n' =>
      n.name = n'.name → n.hidden = false ∧ n'.hidden = true := by
  have hlabels : (d.grammar start).nonterminals.toList.map (·.label) =
      d.nonterminals.keys NonterminalDecl.label :=
    d.nonterminals.toList_map_mapIdx fun _ _ => rfl
  have hbefore := h.nonterminals.before
  rwa [← hlabels, List.pairwise_map] at hbefore

theorem terminalNamed?_grammar {d : Draft} (h : d.Named) {start : NonterminalId} {t : Terminal}
    (ht : t ∈ (d.grammar start).terminals) :
    (d.grammar start).terminalNamed? t.name = some t.id := by
  obtain ⟨first, -, hfind, hname, rfl | hne⟩ := exists_find?_name
    (pairwise_terminals h start) (Array.mem_toList_iff.mpr ht)
  · rw [Array.find?_toList] at hfind
    rw [Grammar.terminalNamed?, hfind]
    rfl
  · exact absurd hname hne

/-- The first nonterminal with a given name is the one meant, or was declared and shadows it. -/
theorem nonterminalNamed?_grammar {d : Draft} (h : d.Named) {start : NonterminalId}
    {n : Nonterminal} (hn : n ∈ (d.grammar start).nonterminals) :
    ∃ first ∈ (d.grammar start).nonterminals,
      (d.grammar start).nonterminalNamed? n.name = some first.id ∧ first.name = n.name ∧
        (first = n ∨ first.hidden = false ∧ n.hidden = true) := by
  obtain ⟨first, hmem, hfind, hname, hfirst⟩ := exists_find?_name
    (pairwise_nonterminals h start) (Array.mem_toList_iff.mpr hn)
  rw [Array.find?_toList] at hfind
  refine ⟨first, Array.mem_toList_iff.mp hmem, ?_, hname, hfirst.imp_right fun hbefore =>
    hbefore hname⟩
  rw [Grammar.nonterminalNamed?, hfind]
  rfl

theorem named_grammar {d : Draft} (hd : d.Sound) (h : d.Named) (start : NonterminalId) :
    (d.grammar start).Named := by
  refine ⟨?_, ?_, ?_, fun t ht => terminalNamed?_grammar h ht, ?_⟩
  · intro t ht t' ht' heq
    have hfind := terminalNamed?_grammar h ht
    rw [heq, terminalNamed?_grammar h ht'] at hfind
    exact (Option.some.inj hfind).symm
  · intro n hn n' hn'
    have hsymm : Std.Symm fun n n' : Nonterminal =>
        n.hidden = n'.hidden → n.name = n'.name → n.id = n'.id :=
      ⟨fun _ _ h hhidden hname => (h hhidden.symm hname.symm).symm⟩
    have hpairwise := (pairwise_nonterminals h start).imp
      (S := fun n n' => n.hidden = n'.hidden → n.name = n'.name → n.id = n'.id) <| by
        intro n n' hbefore hhidden hname
        obtain ⟨hfalse, htrue⟩ := hbefore hname
        rw [hfalse, htrue] at hhidden
        cases hhidden
    exact hpairwise.forall_of_forall (fun _ _ _ _ => rfl) (Array.mem_toList_iff.mpr hn)
      (Array.mem_toList_iff.mpr hn')
  · intro n hn htrue
    obtain ⟨decl, hdecl, rfl⟩ := hd.nonterminal_id.exists_of_mem_mapIdx hn
    have hlabel := List.mem_map_of_mem (f := NonterminalDecl.label)
      (Array.mem_toList_iff.mpr (Array.mem_of_getElem? hdecl))
    obtain ⟨k, -, hname⟩ := h.nonterminals.hidden decl.label hlabel htrue
    exact ⟨k, hname⟩
  · intro n hn
    obtain ⟨first, hmem, hfind, hname, hfirst⟩ := nonterminalNamed?_grammar h hn
    constructor
    · rintro hid ⟨htrue, n', hn', hfalse, hname'⟩
      obtain ⟨first', -, hfind', -, rfl | ⟨-, htrue'⟩⟩ := nonterminalNamed?_grammar h hn'
      · rw [hname', hid] at hfind'
        have hplace := hd.nonterminal_id_grammar start
        have hsame := hplace.getElem?_of_mem hn
        rw [Option.some.inj hfind', hplace.getElem?_of_mem hn', Option.some.injEq] at hsame
        rw [hsame, htrue] at hfalse
        cases hfalse
      · rw [hfalse] at htrue'
        cases htrue'
    · intro hshadowed
      rcases hfirst with rfl | ⟨hfalse, htrue⟩
      · exact hfind
      · exact absurd ⟨htrue, first, hmem, hfalse, hname⟩ hshadowed

theorem named_of_define {declarations : List Declaration} {g : Grammar}
    (h : define declarations = .ok g) : g.Named := by
  obtain ⟨start, -, rfl⟩ := Draft.finish_eq_ok h
  exact named_grammar (Draft.sound_declareAll declarations)
    (Draft.named_declareAll declarations) start

/-- The grammar of `S ::= {first} x`, with a nonterminal that is declared under the name which the
hidden one takes. -/
def clashing : List Declaration :=
  [.terminal "x" none, .nonterminal "NT$0", .nonterminal "S", .start (.nth 2),
    .rule (.nth 2) [.action "first", .terminal 2] none]

theorem named_of_define_clashing :
    ∃ g, define clashing = .ok g ∧ g.Named ∧
      g.nonterminals.toList.map (fun n => (n.name, n.hidden)) =
        [("$START", false), ("NT$0", false), ("S", false), ("NT$0", true)] := by
  obtain ⟨g, hg, hrun⟩ := @exists_define clashing (fun g =>
      g.nonterminals.toList.map (fun n => (n.name, n.hidden)) =
        [("$START", false), ("NT$0", false), ("S", false), ("NT$0", true)]) (by decide +kernel)
  exact ⟨g, hg, named_of_define hg, of_decide_eq_true hrun⟩

/-- The name of the hidden nonterminal finds the declared one. -/
theorem exists_shadowed_clashing :
    ∃ g, define clashing = .ok g ∧
      ∃ n ∈ g.nonterminals, g.nonterminalNamed? n.name ≠ some n.id := by
  obtain ⟨g, hg, hrun⟩ := @exists_define clashing (fun g =>
      g.nonterminals.toList.any fun n => g.nonterminalNamed? n.name ≠ some n.id) (by
    decide +kernel)
  simp only [List.any_eq_true, decide_eq_true_eq, Array.mem_toList_iff] at hrun
  exact ⟨g, hg, hrun⟩

end Grammar

end Lalr
