import Shorthand.Table.Reader
import Shorthand.Proofs.Matcher
import Shorthand.Proofs.Pool
import Shorthand.Proofs.Table.Layout
import Shorthand.Proofs.Table.Word

/-!
# Tables are read back

The reader finds in a table what the trie keeps that it was made of, item by item and in the order of
the paths. The reader knows nothing of the trie: it follows the words. `Table.Lays` says which words
these are, so the proof goes by induction on the trees and follows the walk of the reader through
the entries of each of them (`Reader.Follows`).

## Main statements

- `Reader.decode_words`: reading the words of a trie gives the items of the trie.
- `Matcher.decode_encode`: reading the table of a matcher gives its rules with their edits.
-/

namespace Shorthand

/-! ## Stored matches -/

/-- The match for an edit that is kept under a path. The latest code of the path comes first. -/
def Alphabet.stored (alphabet : Alphabet) (path : List Code) (edit : Edit) : StoredMatch :=
  ⟨String.ofList (path.filterMap alphabet.char?), edit⟩

/-- Whether a code has a character and can stand in a table. -/
structure Alphabet.Knows (alphabet : Alphabet) (code : Code) : Prop where
  /-- It has a character. -/
  isSome : (alphabet.char? code).isSome
  /-- It can stand in a table. -/
  plain : Table.Plain code

theorem Alphabet.knows_of_code? {alphabet : Alphabet} {c : Char} {code : Code}
    (h : alphabet.code? c = some code) : alphabet.Knows code :=
  ⟨by rw [char?_eq_some_iff.mpr h]; rfl, code_ne_zero h, code_toNat_lt h⟩

/-- The matches for the edits of some trees, where `path` leads to the trees. -/
def Forest.stored (alphabet : Alphabet) (forest : Forest Edit) (path : List Code) :
    List StoredMatch :=
  forest.toList.map fun x => alphabet.stored (x.1.reverse ++ path) x.2

theorem Forest.stored_nil (alphabet : Alphabet) (path : List Code) :
    nil.stored alphabet path = [] := rfl

theorem Forest.stored_cons (alphabet : Alphabet) (code : Code) (index : Nat) (item : Option Edit)
    (children siblings : Forest Edit) (path : List Code) :
    (cons code index item children siblings).stored alphabet path =
      item.toList.map (alphabet.stored (code :: path)) ++
        children.stored alphabet (code :: path) ++ siblings.stored alphabet path := by
  simp only [stored, toList, List.map_append, List.map_map, Function.comp_def, List.reverse_cons,
    List.reverse_nil, List.nil_append, List.append_assoc, List.cons_append]

namespace Reader

variable {r : Reader} {pool : Pool} {offsets : Offsets} {offset position : Nat} {path : List Code}

/-! ## Single words -/

/-- The characters of a path whose codes are known. -/
theorem context_eq_ok (h : ∀ code ∈ path, r.alphabet.Knows code) :
    r.context path = .ok (path.filterMap r.alphabet.char?) := by
  rw [context, mapM_eq_ok_iff]
  induction path with
  | nil => exact List.Forall₂.nil
  | cons code path ih =>
    rw [List.forall_mem_cons] at h
    obtain ⟨c, hc⟩ := Option.isSome_iff_exists.mp h.1.isSome
    rw [List.filterMap_cons_some hc]
    exact List.Forall₂.cons (by rw [hc]) (ih h.2)

/-- In the words of a run, a code goes on the path. -/
theorem visitShape_run {code next : Code} {words : List UInt16} (hcode : Table.Plain code)
    (hnext : Table.Plain next) (h : r.table.Holds position (code :: next :: words))
    (hle : offset ≤ position) :
    r.visitShape offset position hle path =
      r.visitShape offset (position + 1) (Nat.le_succ_of_le hle) (code :: path) := by
  obtain ⟨⟨hlt, hword⟩, h⟩ := Table.holds_cons.mp h
  obtain ⟨⟨hlt', hword'⟩, -⟩ := Table.holds_cons.mp h
  -- both sides read the run to its end, once from this word and once from the next
  rw [visitShape, dif_pos hlt, hword, if_neg hcode.ne_zero, if_neg (by simp [hcode.hasBranchFlag]),
    visitShape, dif_pos hlt', hword', if_neg hnext.ne_zero, if_neg (by simp [hnext.hasBranchFlag]),
    chain, dif_pos hlt, hword, if_neg hcode.ne_zero]
  cases r.chain (position + 1) (code :: path) <;> rfl

/-- At the end of a run, the next entry follows. -/
theorem visitShape_run_end {code : Code} (hcode : Table.Plain code)
    (h : r.table.Holds position [code, 0]) (hle : offset ≤ position) :
    r.visitShape offset position hle path = r.visit (position + 2) (code :: path) := by
  obtain ⟨⟨hlt, hword⟩, h⟩ := Table.holds_cons.mp h
  obtain ⟨⟨hlt', hword'⟩, -⟩ := Table.holds_cons.mp h
  rw [visitShape, dif_pos hlt, hword, if_neg hcode.ne_zero, if_neg (by simp [hcode.hasBranchFlag]),
    chain, dif_pos hlt, hword, if_neg hcode.ne_zero, chain, dif_pos hlt', hword', if_pos rfl]

theorem visitShape_branch {word : UInt16} {words : List UInt16} (hne : word ≠ 0)
    (hflag : Table.hasBranchFlag word) (h : r.table.Holds position (word :: words))
    (hle : offset ≤ position) :
    r.visitShape offset position hle path = r.visitLinks offset position hle path := by
  obtain ⟨⟨hlt, hword⟩, -⟩ := Table.holds_cons.mp h
  rw [visitShape, dif_pos hlt, hword, if_neg hne, if_pos hflag]

/-- A link that leads forwards is followed, and then the links after it. -/
theorem visitLinks_cons {word target : UInt16} {words : List UInt16} {code : Code}
    {first rest : List StoredMatch} (hcode : Table.withoutBranchFlag word = code) (hne : code ≠ 0)
    (h : r.table.Holds position (word :: target :: words)) (hle : offset ≤ position)
    (hlt : offset < target.toNat) (hfirst : r.visit target.toNat (code :: path) = .ok first)
    (hrest : r.visitLinks offset (position + 2) (Nat.le_add_right_of_le hle) path = .ok rest) :
    r.visitLinks offset position hle path = .ok (first ++ rest) := by
  obtain ⟨⟨hpos, hword⟩, h⟩ := Table.holds_cons.mp h
  obtain ⟨⟨hpos', hword'⟩, -⟩ := Table.holds_cons.mp h
  rw [visitLinks, dif_pos hpos]
  simp only [hword, hcode, if_neg hne, dif_pos hpos', hword', if_neg (Nat.not_le.mpr hlt), hfirst,
    hrest]

theorem visitLinks_nil (h : r.table.Holds position [0]) (hle : offset ≤ position) :
    r.visitLinks offset position hle path = .ok [] := by
  obtain ⟨⟨hpos, hword⟩, -⟩ := Table.holds_cons.mp h
  rw [visitLinks, dif_pos hpos]
  simp [hword, Table.withoutBranchFlag, Table.hasBranchFlag]

end Reader

/-! ## Shapes -/

theorem Shape.exists_link_eq_cons {offsets : Offsets} {edge : Code × Nat} {words : List UInt16}
    (h : link offsets edge = .ok words) : ∃ target, words = [edge.1, target] := by
  unfold link at h
  split at h
  · cases h
  · exact ⟨_, (Except.ok.inj h).symm⟩

namespace Forest

variable {forest : Forest Edit} {offsets : Offsets} {words : List UInt16}

theorem isSingle_iff {α : Type} {forest : Forest α} :
    forest.isSingle ↔ ∃ code index item children, forest = cons code index item children nil := by
  match forest with
  | nil => simp [isSingle]
  | cons code index item children nil => simp [isSingle]
  | cons code index item children (cons ..) => simp [isSingle]

section

variable {α : Type} {code c : Code} {index n : Nat} {item i : Option α}
  {children below beside : Forest α}

theorem shape_cons_of_run (h : children.isSingle) :
    (cons code index none children nil).shape = children.shape.prepend code := by
  simp [shape, isEmpty, h]

theorem entries_cons_of_run (h : children.isSingle) :
    (cons code index none children nil).entries false = children.entries false := by
  simp [entries, isEmpty, h]

theorem shape_cons_of_end (h : (item.isNone && children.isSingle) = false) :
    (cons code index item children nil).shape = .chain [code] := by
  simp [shape, isEmpty, h]

theorem entries_cons_of_end (h : (item.isNone && children.isSingle) = false) :
    (cons code index item children nil).entries false =
      ⟨index, item, children.shape⟩ :: children.entries false := by
  simp [entries, isEmpty, h]

theorem shape_cons_cons :
    (cons code index item children (cons c n i below beside)).shape =
      .branch ((code, index) :: (cons c n i below beside).edges) := by
  simp [shape, isEmpty]

end

theorem exists_shape_eq_chain (code : Code) (index : Nat) (item : Option Edit)
    (children : Forest Edit) :
    ∃ codes, (cons code index item children nil).shape = .chain (code :: codes) := by
  simp only [shape, isEmpty, if_true]
  split
  · cases children.shape <;> exact ⟨_, rfl⟩
  · exact ⟨[], rfl⟩

theorem shape_eq_leaf_iff : forest.shape = .leaf ↔ forest = nil := by
  match forest with
  | nil => simp [shape]
  | cons code index item children nil =>
    obtain ⟨codes, hshape⟩ := exists_shape_eq_chain code index item children
    simp [hshape]
  | cons code index item children (cons ..) => simp [shape, isEmpty]

/-- A shape does not start like a match. -/
theorem exists_words_eq_cons (hne : forest ≠ nil) (hover : forest.Over Table.Plain)
    (hwords : forest.shape.words offsets = .ok words) :
    ∃ word rest, words = word :: rest ∧ Table.isMatch word = false := by
  match forest with
  | nil => exact absurd rfl hne
  | cons code index item children nil =>
    -- a run starts with a code as it is
    obtain ⟨codes, hshape⟩ := exists_shape_eq_chain code index item children
    rw [hshape] at hwords
    cases hwords
    exact ⟨code, _, rfl, hover.1.isMatch⟩
  | cons code index item children (cons ..) =>
    -- a list of branches starts with a code that has the branch flag
    simp only [shape, isEmpty, Bool.false_eq_true, if_false, Shape.words, List.mapM_cons,
      bind_eq_ok_iff] at hwords
    obtain ⟨links, ⟨link, hlink, rest, -, hlinks⟩, hwords⟩ := hwords
    obtain rfl := Except.ok.inj hlinks
    obtain rfl := Except.ok.inj hwords
    obtain ⟨target, rfl⟩ := Shape.exists_link_eq_cons hlink
    exact ⟨_, _, rfl, hover.1.isMatch_withBranchFlag⟩

end Forest

namespace Reader

variable {r : Reader} {pool : Pool} {offsets : Offsets}

/-! ## Entries -/

/-- The match of an entry that was laid out with a pool is read from the bytes of the pool. -/
theorem storedMatch_eq_ok (hbytes : r.pool = pool.data) (hpool : pool.WellFormed) {edit : Edit}
    {outputOffset : Nat} (houtput : pool.offset? edit.output = some outputOffset) {hasMore : Bool}
    {word : UInt16} (hpack : MatchWord.pack? ⟨hasMore, edit.outputFunc, edit.backspaces,
      edit.output.utf8ByteSize⟩ = some word) {path : List Code}
    (hpath : ∀ code ∈ path, r.alphabet.Knows code) (offset : Nat) :
    r.storedMatch offset word (UInt16.ofNat outputOffset) path =
      .ok (r.alphabet.stored path edit) := by
  obtain ⟨hend, hread⟩ := hpool.read_eq houtput
  simp only [storedMatch, MatchWord.ofWord_of_pack? hpack, hpool.toNat_ofNat houtput, hbytes,
    if_pos hend, context_eq_ok hpath, hread, String.ofList_toList]
  rfl

/-- Whether the reader, at the shape of a node with these trees below it, finds their items. -/
def Follows (r : Reader) (pool : Pool) (offsets : Offsets) (forest : Forest Edit) : Prop :=
  ∀ ⦃offset position : Nat⦄ (hle : offset ≤ position) ⦃path : List Code⦄ ⦃words : List UInt16⦄,
    (∀ code ∈ path, r.alphabet.Knows code) → forest ≠ .nil →
      forest.shape.words offsets = .ok words → r.table.Holds position words →
        Table.Lays r.table pool offsets (position + forest.shape.size) (forest.entries false) →
          r.visitShape offset position hle path = .ok (forest.stored r.alphabet path)

/-- At an entry, the reader finds its item and then those of the trees below. -/
theorem visit_entry (hbytes : r.pool = pool.data) (hpool : pool.WellFormed) {index : Nat}
    {item : Option Edit} {children : Forest Edit} (hover : children.Over r.alphabet.Knows)
    (hitem : item.isSome ∨ children ≠ .nil) (hfollows : Follows r pool offsets children)
    {start : Nat} {path : List Code} (hpath : ∀ code ∈ path, r.alphabet.Knows code)
    (hlays : Table.Lays r.table pool offsets start
      (⟨index, item, children.shape⟩ :: children.entries false)) :
    r.visit start path =
      .ok (item.toList.map (r.alphabet.stored path) ++ children.stored r.alphabet path) := by
  obtain ⟨-, -, ⟨header, shape, hheader, hshape, hholds⟩, hbelow⟩ := hlays
  have hplain : children.Over Table.Plain := hover.imp fun _ h => h.plain
  cases item with
  | none =>
    -- the entry starts with its shape
    have hne : children ≠ .nil := hitem.resolve_left (by simp)
    cases hheader
    obtain ⟨word, rest, rfl, hword⟩ := Forest.exists_words_eq_cons hne hplain hshape
    obtain ⟨⟨hlt, hget⟩, -⟩ := Table.holds_cons.mp hholds
    rw [visit, dif_pos hlt, if_neg (by simp [hget, hword])]
    exact hfollows _ hpath hne hshape hholds (by simpa [Entry.size] using hbelow)
  -- the entry starts with a match word and the offset of the output
  | some edit =>
    obtain ⟨outputOffset, word, houtput, hpack, rfl⟩ := (Entry.header_eq_ok_iff rfl).mp hheader
    obtain ⟨⟨hlt, hget⟩, hholds⟩ := Table.holds_cons.mp hholds
    obtain ⟨⟨hlt', hget'⟩, hholds⟩ := Table.holds_cons.mp hholds
    have hstored := storedMatch_eq_ok hbytes hpool houtput hpack hpath start
    rw [visit, dif_pos hlt, if_pos (by rw [hget]; exact MatchWord.isMatch_of_pack? hpack),
      dif_pos hlt', hget, hget', hstored]
    -- the match word says whether there is anything below
    have hmore := MatchWord.hasBranchFlag_of_pack? hpack
    by_cases hne : children = .nil
    · subst hne
      simp [hmore, Forest.shape, Forest.stored, Forest.toList]
    · have hflag : Table.hasBranchFlag word = true := by
        rw [hmore, bne_iff_ne, Ne, Forest.shape_eq_leaf_iff]
        exact hne
      have hvisit := hfollows (Nat.le_add_right start 2) hpath hne hshape hholds
        (by simpa [Entry.size, Nat.add_assoc] using hbelow)
      simp [hflag, hvisit]

/-! ## Trees -/

/-- Whether the reader, in a list of branches that lead to these trees, finds their items. -/
def FollowsLinks (r : Reader) (pool : Pool) (offsets : Offsets) (forest : Forest Edit) : Prop :=
  ∀ ⦃offset position start : Nat⦄ (hle : offset ≤ position) ⦃path : List Code⦄
    ⦃links : List (List UInt16)⦄, (∀ code ∈ path, r.alphabet.Knows code) → offset < start →
      List.Forall₂ (fun edge words => Shape.link offsets edge = .ok words) forest.edges links →
        r.table.Holds position (links.flatten ++ [0]) →
          Table.Lays r.table pool offsets start (forest.entries true) →
            r.visitLinks offset position hle path = .ok (forest.stored r.alphabet path)

variable {code : Code} {index : Nat} {item : Option Edit} {children siblings : Forest Edit}

/-- At a branch, the reader finds the items of its tree and then those of the trees beside it. The
code of the branch may have the branch flag. -/
theorem visitLinks_branch (hbytes : r.pool = pool.data) (hpool : pool.WellFormed)
    (hover : (Forest.cons code index item children siblings).Over r.alphabet.Knows)
    (hitem : item.isSome ∨ children ≠ .nil) (hchildren : Follows r pool offsets children)
    (hsiblings : FollowsLinks r pool offsets siblings) {offset position start : Nat}
    (hle : offset ≤ position) {path : List Code} (hpath : ∀ code ∈ path, r.alphabet.Knows code)
    (hlt : offset < start) {word : UInt16} (hword : Table.withoutBranchFlag word = code)
    {link : List UInt16} {links : List (List UInt16)}
    (hlink : Shape.link offsets (code, index) = .ok link)
    (hlinks : List.Forall₂ (fun edge words => Shape.link offsets edge = .ok words) siblings.edges
      links)
    (hholds : r.table.Holds position (word :: link.tail ++ (links.flatten ++ [0])))
    (hlays : Table.Lays r.table pool offsets start
      (⟨index, item, children.shape⟩ :: (children.entries false ++ siblings.entries true))) :
    r.visitLinks offset position hle path =
      .ok ((Forest.cons code index item children siblings).stored r.alphabet path) := by
  obtain ⟨hcode, hover, hover'⟩ := hover
  rw [← List.cons_append, Table.lays_append] at hlays
  have hoffset := hlays.1.1
  have hmax := hlays.1.2.1
  -- the link names the offset at which the entry of the tree stands
  simp only [Shape.link, hoffset] at hlink
  obtain rfl := Except.ok.inj hlink
  have htarget : (UInt16.ofNat start).toNat = start := Table.toNat_ofNat_of_le hmax
  have hpath' : ∀ d ∈ code :: path, r.alphabet.Knows d := List.forall_mem_cons.mpr ⟨hcode, hpath⟩
  -- the entry comes later than the place of the reader, so the link leads forwards
  have hfirst := visit_entry hbytes hpool hover hitem hchildren hpath' hlays.1
  have hrest := hsiblings (Nat.le_add_right_of_le hle) hpath
    (Nat.lt_add_right _ hlt) hlinks (Table.holds_append.mp hholds).2 hlays.2
  rw [visitLinks_cons hword hcode.plain.ne_zero hholds hle (by rwa [htarget])
    (by rw [htarget]; exact hfirst) hrest, Forest.stored_cons]

/-- In a run that passes through a node, the reader finds the items below. -/
theorem follows_cons_of_run (hcode : r.alphabet.Knows code) (hover : children.Over r.alphabet.Knows)
    (hsingle : children.isSingle) (hchildren : Follows r pool offsets children) :
    Follows r pool offsets (.cons code index none children .nil) := by
  intro offset position hle path words hpath _ hwords hholds hlays
  obtain ⟨c, n, i, below, rfl⟩ := Forest.isSingle_iff.mp hsingle
  obtain ⟨codes, hshape⟩ := Forest.exists_shape_eq_chain c n i below
  simp only [Forest.shape_cons_of_run hsingle, hshape, Shape.prepend, Shape.words] at hwords
  obtain rfl := Except.ok.inj hwords
  rw [Forest.shape_cons_of_run hsingle, Forest.entries_cons_of_run hsingle] at hlays
  -- the words after the first one are those of the run below, with the entries where they were
  have hbelow := hchildren (Nat.le_succ_of_le hle) (List.forall_mem_cons.mpr ⟨hcode, hpath⟩)
    (by simp) (by rw [hshape]; rfl) (Table.holds_cons.mp hholds).2
    (by simpa [hshape, Shape.prepend, Shape.size, Nat.add_assoc, Nat.add_comm 1] using hlays)
  rw [visitShape_run hcode.plain hover.1.plain hholds hle, hbelow,
    Forest.stored_cons _ code _ _ _ .nil, Forest.stored_nil]
  simp

/-- In a run that ends at a node, the reader finds the items of the entry that follows. -/
theorem follows_cons_of_end (hbytes : r.pool = pool.data) (hpool : pool.WellFormed)
    (hcode : r.alphabet.Knows code) (hover : children.Over r.alphabet.Knows)
    (hitem : item.isSome ∨ children ≠ .nil) (hrun : (item.isNone && children.isSingle) = false)
    (hchildren : Follows r pool offsets children) :
    Follows r pool offsets (.cons code index item children .nil) := by
  intro offset position hle path words hpath _ hwords hholds hlays
  rw [Forest.shape_cons_of_end hrun] at hwords hlays
  obtain rfl := Except.ok.inj hwords
  rw [Forest.entries_cons_of_end hrun, Shape.size, List.length_singleton] at hlays
  rw [visitShape_run_end hcode.plain hholds hle, visit_entry hbytes hpool hover hitem hchildren
    (List.forall_mem_cons.mpr ⟨hcode, hpath⟩) hlays, Forest.stored_cons, Forest.stored_nil,
    List.append_nil]

/-- The reader finds the items of all trees that were laid out in its table. -/
theorem follows (hbytes : r.pool = pool.data) (hpool : pool.WellFormed) {forest : Forest Edit}
    (hover : forest.Over r.alphabet.Knows) (hfruitful : forest.Fruitful) :
    Follows r pool offsets forest ∧ FollowsLinks r pool offsets forest := by
  -- for both ways to meet the trees at once: a tree is entered from a run or from a list
  induction forest with
  | nil =>
    refine ⟨fun _ _ _ _ _ _ hne => absurd rfl hne, fun _ _ _ hle _ _ _ _ hlinks hholds _ => ?_⟩
    cases hlinks
    exact visitLinks_nil hholds hle
  | cons code index item children siblings ihc ihs =>
    obtain ⟨hitem, hfruitful, hfruitful'⟩ := hfruitful
    have hchildren := (ihc hover.2.1 hfruitful).1
    have hsiblings := (ihs hover.2.2 hfruitful').2
    have hplain := hover.1.plain
    constructor
    · cases siblings with
      | nil =>
        -- alone, the tree continues the run or ends it
        cases hrun : item.isNone && children.isSingle with
        | true =>
          obtain ⟨hnone, hsingle⟩ := Bool.and_eq_true_iff.mp hrun
          obtain rfl := Option.isNone_iff_eq_none.mp hnone
          exact follows_cons_of_run hover.1 hover.2.1 hsingle hchildren
        | false =>
          exact follows_cons_of_end hbytes hpool hover.1 hover.2.1 hitem hrun hchildren
      | cons c n i below beside =>
        -- the first code has the branch flag
        intro offset position hle path words hpath _ hwords hholds hlays
        rw [Forest.shape_cons_cons] at hwords hlays
        obtain ⟨links, hlinks, hwords⟩ := bind_eq_ok_iff.mp hwords
        obtain ⟨link, links, hlink, hrest, rfl⟩ :=
          List.forall₂_cons_left_iff.mp (mapM_eq_ok_iff.mp hlinks)
        obtain ⟨target, rfl⟩ := Shape.exists_link_eq_cons hlink
        obtain rfl := Except.ok.inj hwords
        rw [visitShape_branch hplain.withBranchFlag_ne_zero hplain.hasBranchFlag_withBranchFlag
          hholds hle]
        exact visitLinks_branch hbytes hpool hover hitem hchildren hsiblings hle hpath
          (by simp [Shape.size]; omega) hplain.withoutBranchFlag_withBranchFlag hlink hrest
          (by simpa [Table.flagFirst] using hholds) hlays
    -- further on in a list, codes stand without the flag
    · intro offset position start hle path links hpath hlt hlinks hholds hlays
      obtain ⟨link, links, hlink, hrest, rfl⟩ := List.forall₂_cons_left_iff.mp hlinks
      obtain ⟨target, rfl⟩ := Shape.exists_link_eq_cons hlink
      exact visitLinks_branch hbytes hpool hover hitem hchildren hsiblings hle hpath hlt
        hplain.withoutBranchFlag hlink hrest (by simpa using hholds) hlays

/-! ## Tables -/

/-- A trie without items has an empty table. -/
theorem words_eq_nil {t : Trie Edit} {words : List UInt16}
    (hempty : ¬ (t.root.item.isSome ∨ t.root.children ≠ .nil)) (hwords : t.words pool = .ok words) :
    words = [] := by
  obtain ⟨hnone, hnil⟩ := not_or.mp hempty
  rw [Option.not_isSome_iff_eq_none] at hnone
  rw [not_not] at hnil
  rw [← List.length_eq_zero_iff, Trie.length_words hwords, Trie.entries, hnone, hnil]
  rfl

/-- Reading the words of a trie gives the items of the trie, in the order of their paths. -/
theorem decode_words {t : Trie Edit} {alphabet : Alphabet} {words : List UInt16} (h : t.WellFormed)
    (hknows : ∀ x ∈ t.toList, ∀ code ∈ x.1, alphabet.Knows code) (hpool : pool.WellFormed)
    (hwords : t.words pool = .ok words) :
    (Reader.mk alphabet words.toArray pool.data).decode =
      .ok (t.toList.map fun x => alphabet.stored x.1.reverse x.2) := by
  obtain ⟨offsets, hlays⟩ := h.lays hwords
  have hover : t.root.children.Over alphabet.Knows :=
    h.fruitful.over fun x hx => hknows x (List.mem_append_right _ hx)
  have htoList : (t.toList.map fun x => alphabet.stored x.1.reverse x.2) =
      t.root.item.toList.map (alphabet.stored []) ++ t.root.children.stored alphabet [] := by
    simp [Trie.toList, Node.toList, Forest.stored]
  rw [htoList, decode]
  by_cases hitem : t.root.item.isSome ∨ t.root.children ≠ .nil
  · have hvisit := visit_entry (r := ⟨alphabet, words.toArray, pool.data⟩) rfl hpool hover hitem
      (follows rfl hpool hover h.fruitful).1 (List.forall_mem_nil _) hlays
    cases words with
    | nil =>
      rw [visit] at hvisit
      cases hvisit
    | cons word words => exact hvisit
  · obtain rfl := words_eq_nil hitem hwords
    obtain ⟨hnone, hnil⟩ := not_or.mp hitem
    rw [Option.not_isSome_iff_eq_none] at hnone
    rw [not_not] at hnil
    simp [hnone, hnil, Forest.stored_nil]

end Reader

namespace Matcher

variable {m : Matcher} {edits : List Edit}

/-- What the table of a matcher says: its goals with their edits, in the order of the paths. -/
def stored (m : Matcher) (edits : List Edit) : List StoredMatch :=
  m.trie.toList.map fun x => ⟨x.2.context, edits.toArray.getD x.2.index default⟩

namespace WellFormed

variable (h : m.WellFormed)
include h

theorem trie_edits (edits : List Edit) : (m.edits edits).WellFormed :=
  h.trie.map _

/-- Every item of the trie is taken to the edit of its goal. -/
theorem perm_zip_edits (hlength : edits.length = m.goals.length) :
    (m.trie.toList.map fun x => (x, edits.toArray.getD x.2.index default)).Perm
      ((m.goals.map m.alphabet.place).zip edits) := by
  -- the trie keeps the goals in another order, and every goal knows the position of its edit
  have hperm := h.toList.map fun x : List Code × Goal =>
    (x, edits.toArray.getD x.2.index default)
  refine hperm.trans (List.Perm.of_eq (List.ext_getElem? fun i => ?_))
  simp only [List.map_map, List.getElem?_map, List.zip, List.getElem?_zipWith]
  cases hgoal : m.goals[i]? with
  | none => rfl
  | some goal =>
    obtain ⟨hi, -⟩ := List.getElem?_eq_some_iff.mp hgoal
    have hedit : i < edits.length := hlength ▸ hi
    simp [Alphabet.place, h.index_eq i goal hgoal, hedit]

/-- The trie with the edits keeps them under the paths of their goals. -/
theorem perm_toList_edits (hlength : edits.length = m.goals.length) :
    (m.edits edits).toList.Perm (List.zipWith
      (fun goal edit => (m.alphabet.codes goal.context.toList, edit)) m.goals edits) := by
  have hperm := (h.perm_zip_edits hlength).map fun y => (y.1.1, y.2)
  rw [List.map_map, List.map_zip_eq_zipWith, List.zipWith_map_left] at hperm
  rw [Matcher.edits, Trie.toList_map]
  exact hperm

/-- The edits are what the trie with the edits keeps. -/
theorem perm_edits (hlength : edits.length = m.goals.length) :
    ((m.edits edits).toList.map (·.2)).Perm edits := by
  have hperm := (h.perm_zip_edits hlength).map (·.2)
  rw [List.map_map, List.map_snd_zip (by simp [hlength])] at hperm
  rw [Matcher.edits, Trie.toList_map, List.map_map]
  exact hperm

theorem mem_of_mem_edits (hlength : edits.length = m.goals.length) {x : List Code × Edit}
    (hx : x ∈ (m.edits edits).toList) : x.2 ∈ edits :=
  (h.perm_edits hlength).mem_iff.mp (List.mem_map_of_mem hx)

/-- The table says of every goal what its edit is, and nothing else. -/
theorem perm_stored (hlength : edits.length = m.goals.length) :
    (m.stored edits).Perm (List.zipWith (fun goal edit => ⟨goal.context, edit⟩) m.goals edits) := by
  have hperm := (h.perm_zip_edits hlength).map fun y => (⟨y.1.2.context, y.2⟩ : StoredMatch)
  rw [List.map_map, List.map_zip_eq_zipWith, List.zipWith_map_left] at hperm
  exact hperm

theorem perm_context_stored (hlength : edits.length = m.goals.length) :
    ((m.stored edits).map (·.context)).Perm (m.goals.map (·.context)) := by
  have hperm := (h.perm_zip_edits hlength).map (·.1)
  rw [List.map_map, List.map_fst_zip (by simp [hlength])] at hperm
  simpa [stored, Alphabet.place, Function.comp_def] using hperm.map (·.2.context)

/-- Whatever a table says of its edits it says of the edits that it was made of. -/
theorem perm_map_edit_stored {α : Type} (f : Edit → α) (hlength : edits.length = m.goals.length) :
    ((m.stored edits).map fun s => f s.edit).Perm (edits.map f) := by
  have hperm := (h.perm_zip_edits hlength).map (·.2)
  rw [List.map_map, List.map_snd_zip (by simp [hlength])] at hperm
  simpa [stored, Function.comp_def] using hperm.map f

/-- The table says it in the order of the paths. -/
theorem pairwise_path_stored :
    ∃ paths, (m.stored edits).mapM (fun s => m.alphabet.path s.context.toList) = .ok paths ∧
      paths.Pairwise (· < ·) := by
  refine ⟨m.trie.toList.map (·.1), mapM_eq_ok_iff.mpr ?_,
    List.pairwise_map.mpr h.trie.pairwise_toList⟩
  rw [stored, List.forall₂_map_left_iff, List.forall₂_map_right_iff, List.forall₂_same]
  exact fun x hx => h.path_of_mem_toList hx

/-- All codes in the trie are those of characters. -/
theorem knows_of_mem_edits {x : List Code × Edit} (hx : x ∈ (m.edits edits).toList) {code : Code}
    (hcode : code ∈ x.1) : m.alphabet.Knows code := by
  rw [Matcher.edits, Trie.toList_map] at hx
  obtain ⟨⟨path, goal⟩, hmem, rfl⟩ := List.mem_map.mp hx
  obtain ⟨-, hpath⟩ := Alphabet.path_eq_ok_iff.mp (h.path_of_mem_toList hmem)
  obtain ⟨c, -, hc⟩ := List.mem_filterMap.mp (hpath ▸ hcode)
  exact Alphabet.knows_of_code? hc

/-- Reading the words of a matcher gives what its table is to say. -/
theorem decode_words {pool : Pool} {words : List UInt16} (hpool : pool.WellFormed)
    (hwords : (m.edits edits).words pool = .ok words) :
    (Reader.mk m.alphabet words.toArray pool.data).decode = .ok (m.stored edits) := by
  rw [Reader.decode_words (h.trie_edits edits) (fun _ hx _ => h.knows_of_mem_edits hx) hpool hwords,
    Matcher.edits, Trie.toList_map, stored, List.map_map]
  congr 1
  refine List.map_congr_left fun x hx => ?_
  have hcontext := Alphabet.filterMap_char?_of_path (h.path_of_mem_toList hx)
  simp only [Function.comp_apply, Alphabet.stored, hcontext, String.ofList_toList]

end WellFormed

/-- The contexts of a table are those of the rules. -/
theorem perm_context_of_ofRules {alphabet : Alphabet} {rules : List Rule}
    (hrules : ofRules alphabet rules = .ok m) (hlength : edits.length = m.goals.length) :
    ((m.stored edits).map (·.context)).Perm (rules.map (·.context)) := by
  have hperm := (wellFormed_of_ofRules hrules).perm_context_stored hlength
  rwa [goals_of_ofRules hrules, map_context_goalsOf] at hperm

/-- The edits of three rules fit with a pool of two outputs. -/
theorem exists_pool_three_rules :
    ∃ pool, (Pool.ofOutputs ["yz", "x"]).result = .ok pool ∧
      ∀ edit ∈ ([⟨1, 0, "x"⟩, ⟨2, 1, "yz"⟩, ⟨0, 0, "x"⟩] : List Edit), edit.Fits pool := by
  -- the outputs need three bytes at most
  have hsize : (Pool.greedy ["yz", "x"]).size ≤ Pool.maxSize := by
    have horder : Pool.placementOrder ["yz", "x"] = ["yz", "x"] := by
      simp [Pool.placementOrder, List.mergeSort, Pool.comesFirst, List.merge]
      rfl
    simp only [Pool.greedy, horder, List.foldl_cons, List.foldl_nil, Pool.grow]
    split <;> split <;> decide
  obtain ⟨pool, hpool⟩ := Pool.exists_ofOutputs_iff.mpr
    ⟨(by decide : ∀ output ∈ ["yz", "x"], Pool.isAscii output), hsize⟩
  refine ⟨pool, hpool, ?_⟩
  simp only [List.forall_mem_cons]
  refine ⟨⟨?_, by decide, by decide, by decide⟩, ⟨?_, by decide, by decide, by decide⟩,
    ⟨?_, by decide, by decide, by decide⟩, List.forall_mem_nil _⟩ <;>
    exact (Pool.isSome_offset?_iff hpool).mpr (by decide)

/-- Three rules, one of them without a context, have a table. -/
theorem exists_encode_three_rules :
    ∃ m pool table,
      ofRules ⟨['★'], ['☆'], ' ', by decide, by decide⟩
        [⟨1, "ab", "x"⟩, ⟨2, "cb", "yz"⟩, ⟨3, "", "x"⟩] = .ok m ∧
      (Pool.ofOutputs ["yz", "x"]).result = .ok pool ∧
      ((m.edits [⟨1, 0, "x"⟩, ⟨2, 1, "yz"⟩, ⟨0, 0, "x"⟩]).encode pool).result = .ok table := by
  obtain ⟨m, hrules, hlength, hspan⟩ : ∃ m, ofRules ⟨['★'], ['☆'], ' ', by decide, by decide⟩
      [⟨1, "ab", "x"⟩, ⟨2, "cb", "yz"⟩, ⟨3, "", "x"⟩] = .ok m ∧
        ([⟨1, 0, "x"⟩, ⟨2, 1, "yz"⟩, ⟨0, 0, "x"⟩] : List Edit).length = m.goals.length ∧
        Table.span (m.edits [⟨1, 0, "x"⟩, ⟨2, 1, "yz"⟩, ⟨0, 0, "x"⟩]).entries ≤ Table.maxSize :=
    ⟨_, rfl, rfl, by decide⟩
  obtain ⟨pool, hpool, hfits⟩ := exists_pool_three_rules
  obtain ⟨words, hwords⟩ := (Trie.exists_words_iff fun x hx =>
    hfits _ ((wellFormed_of_ofRules hrules).mem_of_mem_edits hlength hx)).mpr hspan
  exact ⟨m, pool, _, hrules, hpool, Trie.encode_eq_ok_iff.mpr ⟨words, hwords, rfl⟩⟩

/-- Reading the table of a matcher back gives the context of every rule with its edit, once and in the
order of the paths. -/
theorem decode_encode {alphabet : Alphabet} {rules : List Rule} {outputs : List String}
    {pool : Pool} {table : Table} (hrules : ofRules alphabet rules = .ok m)
    (hlength : edits.length = rules.length) (hpool : (Pool.ofOutputs outputs).result = .ok pool)
    (htable : ((m.edits edits).encode pool).result = .ok table) :
    ∃ stored, (Reader.mk alphabet table pool.data).decode = .ok stored ∧
      stored.Perm (List.zipWith (fun r edit => ⟨r.context, edit⟩) rules edits) ∧
        ∃ paths, stored.mapM (fun s => alphabet.path s.context.toList) = .ok paths ∧
          paths.Pairwise (· < ·) := by
  have hwf := wellFormed_of_ofRules hrules
  obtain rfl := alphabet_of_ofRules hrules
  obtain ⟨words, hwords, rfl⟩ := Trie.encode_eq_ok_iff.mp htable
  refine ⟨m.stored edits, hwf.decode_words (Pool.wellFormed_of_ofOutputs hpool) hwords, ?_,
    hwf.pairwise_path_stored⟩
  have hgoals := goals_of_ofRules hrules
  refine (hwf.perm_stored (by rw [hlength, hgoals, length_goalsOf])).trans (List.Perm.of_eq ?_)
  refine List.ext_getElem? fun i => ?_
  simp only [hgoals, List.getElem?_zipWith, getElem?_goalsOf]
  cases rules[i]? with
  | none => rfl
  | some r => cases edits[i]? <;> simp

/-- Three rules, one of them without a context, are laid out and read back. -/
theorem decode_encode_three_rules :
    ∃ m pool table stored,
      ofRules ⟨['★'], ['☆'], ' ', by decide, by decide⟩
        [⟨1, "ab", "x"⟩, ⟨2, "cb", "yz"⟩, ⟨3, "", "x"⟩] = .ok m ∧
      (Pool.ofOutputs ["yz", "x"]).result = .ok pool ∧
      ((m.edits [⟨1, 0, "x"⟩, ⟨2, 1, "yz"⟩, ⟨0, 0, "x"⟩]).encode pool).result = .ok table ∧
      (Reader.mk ⟨['★'], ['☆'], ' ', by decide, by decide⟩ table pool.data).decode = .ok stored ∧
      stored.Perm [⟨"ab", 1, 0, "x"⟩, ⟨"cb", 2, 1, "yz"⟩, ⟨"", 0, 0, "x"⟩] := by
  obtain ⟨m, pool, table, hrules, hpool, htable⟩ := exists_encode_three_rules
  obtain ⟨stored, hdecode, hperm, -⟩ := decode_encode hrules rfl hpool htable
  exact ⟨m, pool, table, stored, hrules, hpool, htable, hdecode, hperm⟩

end Matcher

end Shorthand
