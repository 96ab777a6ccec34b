import Shorthand.Proofs.Table.RoundTrip
import Shorthand.Proofs.Trie.Alike

/-!
# Tables do not depend on the numbers of nodes

The numbers of nodes say which entry a branch leads to, and nothing else of them comes into a table.
In tries that are alike the entries have the same sizes, so they are placed at the same offsets, and
the links that are written for them are the same. A table is therefore known from the items of its
trie and their paths.

## Main statements

- `Forest.Alike.words_shape`: trees that are alike have shapes with the same words.
- `Trie.WellFormed.words_eq_ok_of_toList_eq`: tries with the same items have the same table.
-/

namespace Shorthand

namespace Forest

/-! ## Shapes and sizes -/

/-- Trees side by side are branched off, whatever they stand below. -/
theorem entries_of_not_isSingle {α : Type} {f : Forest α} (h : f.isSingle = false) :
    f.entries false = f.entries true := by
  match f with
  | nil => rfl
  | cons _ _ _ _ (cons ..) => rfl

theorem shape_of_not_isSingle {α : Type} {f : Forest α} (hempty : f.isEmpty = false)
    (h : f.isSingle = false) : f.shape = .branch f.edges := by
  match f with
  | cons _ _ _ _ (cons ..) => exact shape_cons_cons

namespace Alike

variable {α : Type} {f f' : Forest α} (h : f.Alike f')
include h

theorem isEmpty_eq : f.isEmpty = f'.isEmpty := by
  cases h <;> rfl

theorem isSingle_eq : f.isSingle = f'.isSingle := by
  cases h with
  | nil => rfl
  | cons hchildren hsiblings => cases hsiblings <;> rfl

theorem length_edges : f.edges.length = f'.edges.length := by
  induction h with
  | nil => rfl
  | cons _ _ _ ihs => simp [edges, ihs]

/-- The shape of a run has no numbers in it. -/
theorem shape_eq (hsingle : f.isSingle) : f.shape = f'.shape := by
  induction h with
  | nil => rfl
  | cons hchildren hsiblings ihc _ =>
    cases hsiblings with
    | cons => cases hsingle
    | nil =>
      -- the run goes on below in both or in none
      simp only [shape, isEmpty, if_true, ← hchildren.isSingle_eq]
      split
      next hrun => rw [ihc (Bool.and_eq_true_iff.mp hrun).2]
      next => rfl

theorem size_shape : f.shape.size = f'.shape.size := by
  cases h with
  | nil => rfl
  | cons hchildren hsiblings =>
    cases hsiblings with
    | nil => rw [shape_eq (.cons hchildren .nil) rfl]
    | cons hbelow hbeside =>
      simp only [shape_cons_cons, Shape.size, List.length_cons]
      rw [length_edges (.cons hbelow hbeside)]

/-- Entries of trees that are alike take as many words. -/
theorem span_entries (branched : Bool) :
    Table.span (f.entries branched) = Table.span (f'.entries branched) := by
  induction h generalizing branched with
  | nil => rfl
  | cons hchildren hsiblings ihc ihs =>
    simp only [entries, hchildren.isSingle_eq, hsiblings.isEmpty_eq]
    split
    · exact ihc false
    · simp only [Table.span, Table.span_append, Entry.size, hchildren.size_shape, ihc, ihs]

end Alike

/-! ## Words -/

namespace Alike

variable {f f' : Forest Edit} {offsets offsets' : Offsets} {start : Nat}

theorem shape_eq_leaf_iff (h : f.Alike f') : f.shape = .leaf ↔ f'.shape = .leaf := by
  rw [Forest.shape_eq_leaf_iff, Forest.shape_eq_leaf_iff]
  cases h <;> simp

/-- The words before the shape do not say which node it is. -/
theorem header_eq (h : f.Alike f') (pool : Pool) (index index' : Nat) (item : Option Edit) :
    Entry.header pool ⟨index, item, f.shape⟩ = Entry.header pool ⟨index', item, f'.shape⟩ := by
  have hmore : (f.shape != .leaf) = (f'.shape != .leaf) := by
    rw [Bool.eq_iff_iff, bne_iff_ne, bne_iff_ne, ne_eq, ne_eq, h.shape_eq_leaf_iff]
  simp only [Entry.header, hmore]

theorem mapM_header (h : f.Alike f') (pool : Pool) (branched : Bool) :
    (f.entries branched).mapM (Entry.header pool) =
      (f'.entries branched).mapM (Entry.header pool) := by
  induction h generalizing branched with
  | nil => rfl
  | @cons _ index index' item _ _ _ _ hchildren hsiblings ihc ihs =>
    simp only [entries, hchildren.isSingle_eq, hsiblings.isEmpty_eq]
    split
    · exact ihc false
    · simp only [List.mapM_cons, List.mapM_append, hchildren.header_eq pool index index', ihc, ihs]

/-- Branches to entries at the same offsets have the same links. -/
theorem mapM_link (h : f.Alike f') (hplaced : Table.Placed offsets start (f.entries true))
    (hplaced' : Table.Placed offsets' start (f'.entries true)) :
    f.edges.mapM (Shape.link offsets) = f'.edges.mapM (Shape.link offsets') := by
  induction h generalizing start with
  | nil => rfl
  | cons hchildren hsiblings _ ihs =>
    obtain ⟨hoffset, hrest⟩ := hplaced
    obtain ⟨hoffset', hrest'⟩ := hplaced'
    rw [Table.placed_append] at hrest hrest'
    -- the entries below take as many words, so those beside start at one offset
    rw [Entry.size, hchildren.size_shape, hchildren.span_entries] at hrest
    simp only [edges, List.mapM_cons, Shape.link, hoffset, hoffset', ihs hrest.2 hrest'.2]

/-- Shapes have the same words if the entries below are placed alike. -/
theorem words_shape (h : f.Alike f') (hplaced : Table.Placed offsets start (f.entries false))
    (hplaced' : Table.Placed offsets' start (f'.entries false)) :
    f.shape.words offsets = f'.shape.words offsets' := by
  cases hempty : f.isEmpty with
  | true =>
    cases h with
    | nil => rfl
    | cons => cases hempty
  | false =>
    have hempty' : f'.isEmpty = false := h.isEmpty_eq.symm.trans hempty
    cases hsingle : f.isSingle with
    | true =>
      -- a run has no links
      rw [h.shape_eq hsingle]
      obtain ⟨code, index, item, children, rfl⟩ := isSingle_iff.mp (h.isSingle_eq ▸ hsingle)
      obtain ⟨codes, hshape⟩ := exists_shape_eq_chain code index item children
      rw [hshape]
      rfl
    | false =>
      have hsingle' : f'.isSingle = false := h.isSingle_eq.symm.trans hsingle
      rw [entries_of_not_isSingle hsingle] at hplaced
      rw [entries_of_not_isSingle hsingle'] at hplaced'
      rw [shape_of_not_isSingle hempty hsingle, shape_of_not_isSingle hempty' hsingle', Shape.words,
        Shape.words, h.mapM_link hplaced hplaced']

/-- So it is for the shapes of all entries. -/
theorem mapM_words (h : f.Alike f') {branched : Bool}
    (hplaced : Table.Placed offsets start (f.entries branched))
    (hplaced' : Table.Placed offsets' start (f'.entries branched)) :
    (f.entries branched).mapM (·.shape.words offsets) =
      (f'.entries branched).mapM (·.shape.words offsets') := by
  induction h generalizing start branched with
  | nil => rfl
  | cons hchildren hsiblings ihc ihs =>
    simp only [entries, hchildren.isSingle_eq, hsiblings.isEmpty_eq] at hplaced hplaced' ⊢
    split at hplaced
    next hrun =>
      rw [if_pos hrun] at hplaced'
      simp only [hrun, if_true]
      exact ihc hplaced hplaced'
    next hend =>
      rw [if_neg hend] at hplaced'
      simp only [hend, Bool.false_eq_true, if_false]
      obtain ⟨-, hrest⟩ := hplaced
      obtain ⟨-, hrest'⟩ := hplaced'
      rw [Table.placed_append] at hrest hrest'
      -- the entries below start at one offset in both tables, and so do those beside
      rw [Entry.size, hchildren.size_shape, hchildren.span_entries] at hrest
      simp only [List.mapM_cons, List.mapM_append, hchildren.words_shape hrest.1 hrest'.1,
        ihc hrest.1 hrest'.1, ihs hrest.2 hrest'.2]

end Alike

end Forest

/-! ## Tables -/

namespace Trie

variable {t t' : Trie Edit} {pool : Pool} {words : List UInt16} {offsets offsets' : Offsets}

section

variable (hitem : t.root.item = t'.root.item) (halike : t.root.children.Alike t'.root.children)
include hitem halike

theorem span_entries_of_alike : Table.span t.entries = Table.span t'.entries := by
  simp only [entries, Table.span, Entry.size, hitem, halike.size_shape, halike.span_entries]

theorem mapM_header_of_alike (pool : Pool) :
    t.entries.mapM (Entry.header pool) = t'.entries.mapM (Entry.header pool) := by
  simp only [entries, List.mapM_cons, hitem, halike.header_eq pool t.root.index t'.root.index,
    halike.mapM_header]

theorem mapM_words_of_alike (hplaced : Table.Placed offsets 0 t.entries)
    (hplaced' : Table.Placed offsets' 0 t'.entries) :
    t.entries.mapM (·.shape.words offsets) = t'.entries.mapM (·.shape.words offsets') := by
  obtain ⟨-, hbelow⟩ := hplaced
  obtain ⟨-, hbelow'⟩ := hplaced'
  -- the root takes as many words in both
  rw [Entry.size, hitem, halike.size_shape] at hbelow
  simp only [entries, List.mapM_cons, halike.words_shape hbelow hbelow',
    halike.mapM_words hbelow hbelow']

end

/-- Tries with the same items have the same table. -/
theorem WellFormed.words_eq_ok_of_toList_eq (h : t.WellFormed) (h' : t'.WellFormed)
    (heq : t.toList = t'.toList) (hwords : t.words pool = .ok words) :
    t'.words pool = .ok words := by
  obtain ⟨hitem, halike⟩ := h.alike h' heq
  obtain ⟨headers, offsets, shapes, hheaders, hplace, hshapes, rfl⟩ := words_eq_ok_iff.mp hwords
  -- the entries of the other trie take as many words, so they can be placed too
  have hspan := (Table.exists_place_iff (Nat.zero_le _)).mp ⟨offsets, hplace⟩
  rw [span_entries_of_alike hitem halike] at hspan
  obtain ⟨offsets', hplace'⟩ : ∃ offsets', Table.place ∅ 0 t'.entries = .ok offsets' :=
    (Table.exists_place_iff (Nat.zero_le _)).mpr hspan
  rw [← mapM_eq_ok_iff, mapM_header_of_alike hitem halike, mapM_eq_ok_iff] at hheaders
  rw [← mapM_eq_ok_iff, mapM_words_of_alike hitem halike
    (Table.placed_of_place hplace h.nodup_entries)
    (Table.placed_of_place hplace' h'.nodup_entries), mapM_eq_ok_iff] at hshapes
  exact words_eq_ok_iff.mpr ⟨headers, offsets', shapes, hheaders, hplace', hshapes, rfl⟩

end Trie

end Shorthand
