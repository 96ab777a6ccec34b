import Shorthand.Proofs.Trie

/-!
# Tries with the same items

The numbers of nodes tell in which order a trie was built. All the rest is known from its items: two
tries that keep the same items under the same paths have the same edges and items throughout
(`Trie.WellFormed.alike`), since there is no edge without an item below it and the edges are in order.
-/

namespace Shorthand

variable {α : Type}

/-! ## Nodes -/

/-- Nodes that list the same have the same item, and the same below. -/
theorem Node.eq_item_and_mem_iff {n n' : Node α} (h : ∀ x, x ∈ n.toList ↔ x ∈ n'.toList) :
    n.item = n'.item ∧ ∀ x, x ∈ n.children.toList ↔ x ∈ n'.children.toList := by
  -- an item is listed under the empty path, and what lies below is not
  have hitem (n : Node α) (a : α) : n.item = some a ↔ ([], a) ∈ n.toList := by
    rw [mem_toList_iff_or]
    constructor
    · intro hitem
      exact .inl ⟨rfl, hitem⟩
    · rintro (⟨-, hitem⟩ | hmem)
      · exact hitem
      · exact absurd rfl (Forest.ne_nil_of_mem_toList hmem)
  have hchildren (n : Node α) (x : List Code × α) :
      x ∈ n.children.toList ↔ x.1 ≠ [] ∧ x ∈ n.toList := by
    rw [mem_toList_iff_or]
    constructor
    · intro hmem
      exact ⟨Forest.ne_nil_of_mem_toList hmem, .inr hmem⟩
    · rintro ⟨hne, ⟨hnil, -⟩ | hmem⟩
      · exact absurd hnil hne
      · exact hmem
  refine ⟨Option.ext fun a => ?_, fun x => ?_⟩
  · rw [hitem n, hitem n', h]
  · rw [hchildren n, hchildren n', h]

namespace Forest

/-! ## Trees -/

/-- Whether two lists of trees are the same but for the numbers of their nodes. -/
inductive Alike : Forest α → Forest α → Prop where
  | nil : Alike nil nil
  | cons {code : Code} {index index' : Nat} {item : Option α}
      {children children' siblings siblings' : Forest α} :
      Alike children children' → Alike siblings siblings' →
      Alike (cons code index item children siblings) (cons code index' item children' siblings')

variable {code c : Code} {index : Nat} {item : Option α} {children siblings : Forest α}
  {path : List Code} {a : α}

/-- The first edge has the least code. -/
theorem Sorted.le_of_mem_toList (h : (cons code index item children siblings).Sorted)
    (hmem : (c :: path, a) ∈ (cons code index item children siblings).toList) : code ≤ c := by
  obtain ⟨edge, hedge, rest, heq⟩ := exists_edge_of_mem_toList hmem
  obtain ⟨rfl, -⟩ := List.cons.inj heq
  rcases List.mem_cons.mp hedge with rfl | hedge
  · exact UInt16.le_refl _
  · exact UInt16.le_of_lt (h.1 edge hedge)

/-- What starts with the first code is kept at or below the first root. -/
theorem Sorted.cons_mem_toList_iff_node (h : (cons code index item children siblings).Sorted) :
    (code :: path, a) ∈ (cons code index item children siblings).toList ↔
      (path, a) ∈ (⟨index, item, children⟩ : Node α).toList := by
  rw [h.cons_mem_toList_iff, Forest.child?, if_pos rfl]
  simp

/-- What does not is kept beside it. -/
theorem Sorted.mem_siblings_iff (h : (cons code index item children siblings).Sorted) :
    (path, a) ∈ siblings.toList ↔
      (path, a) ∈ (cons code index item children siblings).toList ∧ path.head? ≠ some code := by
  rw [mem_toList_cons]
  constructor
  · intro hmem
    refine ⟨.inr (.inr hmem), ?_⟩
    obtain ⟨edge, hedge, rest, rfl⟩ := exists_edge_of_mem_toList hmem
    intro heq
    have hlt := h.1 edge hedge
    rw [Option.some.inj heq] at hlt
    exact UInt16.lt_irrefl _ hlt
  · rintro ⟨⟨rfl, -⟩ | ⟨_, rfl, -⟩ | hmem, hne⟩
    · exact absurd rfl hne
    · exact absurd rfl hne
    · exact hmem

/-- Trees that list the same are alike. -/
theorem alike_of_mem_toList_iff {forest forest' : Forest α} (hsorted : forest.Sorted)
    (hsorted' : forest'.Sorted) (hfruitful : forest.Fruitful) (hfruitful' : forest'.Fruitful)
    (h : ∀ x, x ∈ forest.toList ↔ x ∈ forest'.toList) : forest.Alike forest' := by
  induction forest generalizing forest' with
  | nil =>
    cases forest' with
    | nil => exact .nil
    | cons code index item children siblings =>
      obtain ⟨path, a, hmem⟩ := hfruitful'.exists_cons_mem_toList
      cases (h _).mpr hmem
  | cons code index item children siblings ihc ihs =>
    obtain ⟨path, a, hmem⟩ := hfruitful.exists_cons_mem_toList
    cases forest' with
    | nil => cases (h _).mp hmem
    | cons code' index' item' children' siblings' =>
      -- each of the first codes is the least of all
      obtain ⟨path', a', hmem'⟩ := hfruitful'.exists_cons_mem_toList
      obtain rfl : code = code' := UInt16.le_antisymm
        (hsorted.le_of_mem_toList ((h _).mpr hmem')) (hsorted'.le_of_mem_toList ((h _).mp hmem))
      have hnodes : ∀ x, x ∈ (⟨index, item, children⟩ : Node α).toList ↔
          x ∈ (⟨index', item', children'⟩ : Node α).toList := fun x => by
        rw [← hsorted.cons_mem_toList_iff_node, ← hsorted'.cons_mem_toList_iff_node, h]
      obtain ⟨hitem, hchildren⟩ := Node.eq_item_and_mem_iff hnodes
      obtain rfl : item = item' := hitem
      have hsiblings : ∀ x, x ∈ siblings.toList ↔ x ∈ siblings'.toList := fun x => by
        rw [hsorted.mem_siblings_iff, hsorted'.mem_siblings_iff, h]
      exact .cons (ihc hsorted.2.1 hsorted'.2.1 hfruitful.2.1 hfruitful'.2.1 hchildren)
        (ihs hsorted.2.2 hsorted'.2.2 hfruitful.2.2 hfruitful'.2.2 hsiblings)

end Forest

/-- Tries with the same items are alike. -/
theorem Trie.WellFormed.alike {t t' : Trie α} (h : t.WellFormed) (h' : t'.WellFormed)
    (heq : t.toList = t'.toList) :
    t.root.item = t'.root.item ∧ t.root.children.Alike t'.root.children := by
  have hroot : ∀ x, x ∈ t.root.toList ↔ x ∈ t'.root.toList := fun x => by
    show x ∈ t.toList ↔ x ∈ t'.toList
    rw [heq]
  obtain ⟨hitem, hchildren⟩ := Node.eq_item_and_mem_iff hroot
  exact ⟨hitem, Forest.alike_of_mem_toList_iff h.sorted h'.sorted h.fruitful h'.fruitful hchildren⟩

end Shorthand
