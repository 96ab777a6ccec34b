import Shorthand.Table.Layout
import Shorthand.Proofs.Outcome
import Shorthand.Proofs.Trie
import Mathlib.Data.List.Nodup

/-!
# Where the entries of a table stand

The entries of a trie stand in its table one after the other, each at the offset that was given to it:
`Table.Placed` says so of the offsets and `Table.Lays` of the words, from a position on. Because the
nodes of a trie have different numbers, no offset is given twice, and because a branch names nodes that
have entries, every link is found.

`Table.span` is the number of words that entries take. A trie whose edits fit has a table if its
entries do not span more words than offsets reach (`Trie.exists_words_iff`).

## Main statements

- `Trie.WellFormed.lays`: the entries of a trie stand in its table.
- `Trie.exists_words_iff`: which tries have tables.
- `Trie.exists_eq_tableOverflow`: a trie whose edits fit has no table for one reason only.
-/

namespace Shorthand

namespace Table

/-! ## Words in a table -/

/-- Whether some words stand in a table from a position on. -/
def Holds (table : Table) (position : Nat) (words : List UInt16) : Prop :=
  words <+: table.toList.drop position

variable {table : Table} {position : Nat} {word : UInt16} {words words' : List UInt16}

theorem holds_append :
    table.Holds position (words ++ words') ↔
      table.Holds position words ∧ table.Holds (position + words.length) words' := by
  unfold Holds
  rw [← List.drop_drop]
  -- only the words from the position on matter
  generalize table.toList.drop position = l
  constructor
  · rintro ⟨rest, rfl⟩
    simp
  · rintro ⟨⟨rest, rfl⟩, h⟩
    rw [List.drop_left] at h
    exact (List.prefix_append_right_inj words).mpr h

theorem holds_cons :
    table.Holds position (word :: words) ↔
      (∃ h : position < table.size, table[position] = word) ∧ table.Holds (position + 1) words := by
  rw [← List.singleton_append, holds_append, List.length_singleton]
  refine and_congr_left fun _ => ?_
  unfold Holds
  constructor
  · intro h
    have hlt : position < table.size := by
      have hlen := h.length_le
      have hsize : table.toList.length = table.size := Array.length_toList
      rw [List.length_drop, List.length_singleton] at hlen
      omega
    refine ⟨hlt, ?_⟩
    rw [List.drop_eq_getElem_cons (by simpa using hlt), List.cons_prefix_cons] at h
    simpa using h.1.symm
  · rintro ⟨hlt, rfl⟩
    rw [List.drop_eq_getElem_cons (by simpa using hlt), List.cons_prefix_cons]
    simp

theorem holds_toArray (words : List UInt16) : Table.Holds words.toArray 0 words := by
  simp [Holds]

end Table

/-! ## Sizes -/

theorem Shape.length_links {offsets : Offsets} {edges : List (Code × Nat)}
    {links : List (List UInt16)}
    (h : List.Forall₂ (fun edge words => link offsets edge = .ok words) edges links) :
    links.flatten.length = 2 * edges.length := by
  induction h with
  | nil => rfl
  | cons hlink _ ih =>
    unfold link at hlink
    split at hlink
    · cases hlink
    · obtain rfl := Except.ok.inj hlink
      rw [List.flatten_cons, List.length_append, ih, List.length_cons, List.length_cons,
        List.length_cons, List.length_nil]
      omega

theorem Shape.length_words {offsets : Offsets} {shape : Shape} {words : List UInt16}
    (h : shape.words offsets = .ok words) : words.length = shape.size := by
  cases shape with
  | leaf => cases h; rfl
  | chain codes => cases h; simp [size]
  | branch edges =>
    obtain ⟨links, hlinks, h⟩ := bind_eq_ok_iff.mp h
    obtain rfl := Except.ok.inj h
    -- the flag changes a word and not their number
    have hflag : (Table.flagFirst links.flatten).length = links.flatten.length := by
      cases links.flatten <;> rfl
    simp [size, hflag, length_links (mapM_eq_ok_iff.mp hlinks)]

/-- The header of an entry with an edit is its match word and the offset of its output. -/
theorem Entry.header_eq_ok_iff {pool : Pool} {entry : Entry Edit} {edit : Edit}
    {words : List UInt16} (hitem : entry.item = some edit) :
    entry.header pool = .ok words ↔
      ∃ offset word, pool.offset? edit.output = some offset ∧
        MatchWord.pack? ⟨entry.shape != .leaf, edit.outputFunc, edit.backspaces,
          edit.output.utf8ByteSize⟩ = some word ∧ words = [word, UInt16.ofNat offset] := by
  unfold header
  rw [hitem]
  simp only
  cases pool.offset? edit.output with
  | none => simp
  | some offset =>
    cases MatchWord.pack? ⟨entry.shape != .leaf, edit.outputFunc, edit.backspaces,
      edit.output.utf8ByteSize⟩ <;> simp [eq_comm]

theorem Entry.length_header {pool : Pool} {entry : Entry Edit} {words : List UInt16}
    (h : entry.header pool = .ok words) :
    words.length = if entry.item.isSome then 2 else 0 := by
  cases hitem : entry.item with
  | none =>
    unfold header at h
    rw [hitem] at h
    cases h
    rfl
  | some edit =>
    obtain ⟨offset, word, -, -, rfl⟩ := (header_eq_ok_iff hitem).mp h
    rfl

/-- Whether an entry can be written for an edit: its output stands in the pool and its fields fit into
a match word. -/
structure Edit.Fits (pool : Pool) (edit : Edit) : Prop where
  /-- The output stands in the pool. -/
  isSome : (pool.offset? edit.output).isSome
  /-- The number of the output function fits into three bits. -/
  outputFunc_lt : edit.outputFunc < 8
  /-- The number of deletions fits into four bits. -/
  backspaces_lt : edit.backspaces < 16
  /-- The number of bytes of the output fits into seven bits. -/
  length_lt : edit.output.utf8ByteSize < 128

/-- An entry has a header if its edit fits. -/
theorem Entry.exists_header {pool : Pool} {entry : Entry Edit}
    (h : ∀ edit, entry.item = some edit → edit.Fits pool) :
    ∃ words, entry.header pool = .ok words := by
  cases hitem : entry.item with
  | none =>
    unfold header
    rw [hitem]
    exact ⟨[], rfl⟩
  | some edit =>
    obtain ⟨hsome, hfunc, hbackspaces, hlength⟩ := h edit hitem
    obtain ⟨offset, hoffset⟩ := Option.isSome_iff_exists.mp hsome
    have hpack : MatchWord.pack? ⟨entry.shape != .leaf, edit.outputFunc, edit.backspaces,
        edit.output.utf8ByteSize⟩ = some _ := if_pos ⟨hfunc, hbackspaces, hlength⟩
    exact ⟨_, (header_eq_ok_iff hitem).mpr ⟨offset, _, hoffset, hpack, rfl⟩⟩

/-- The number of words that entries take. -/
def Table.span {α : Type} : List (Entry α) → Nat
  | [] => 0
  | entry :: entries => entry.size + span entries

@[simp] theorem Table.span_append {α : Type} (entries entries' : List (Entry α)) :
    span (entries ++ entries') = span entries + span entries' := by
  induction entries with
  | nil => simp [span]
  | cons entry entries ih => rw [List.cons_append, span, span, ih, Nat.add_assoc]

/-! ## Offsets -/

namespace Table

section

variable {α : Type} {known offsets : Offsets} {start : Nat} {entries entries' : List (Entry α)}

/-- Offsets that were given stay, except those of nodes with entries of their own. -/
theorem getElem?_place {node : Nat} (h : place known start entries = .ok offsets)
    (hnode : node ∉ entries.map (·.node)) : offsets[node]? = known[node]? := by
  induction entries generalizing known start with
  | nil => cases h; rfl
  | cons entry entries ih =>
    rw [List.map_cons, List.mem_cons, not_or] at hnode
    simp only [place] at h
    split at h
    · cases h
    · rw [ih h hnode.2, Std.HashMap.getElem?_insert]
      simp [Ne.symm hnode.1]

/-- Entries have offsets if they do not take more words than these reach. -/
theorem exists_place_iff (hstart : start ≤ maxSize) :
    (∃ offsets, place known start entries = .ok offsets) ↔ start + span entries ≤ maxSize := by
  induction entries generalizing known start with
  | nil => simpa [place, span] using hstart
  | cons entry entries ih =>
    simp only [place, span] at ih ⊢
    split
    next hlt => simp only [reduceCtorEq, exists_false, false_iff]; omega
    next hle => rw [ih (Nat.not_lt.mp hle)]; omega

/-- Entries that are not placed take more words than offsets reach. What is named is the end of the
first entry for which this shows. -/
theorem exists_eq_tableOverflow {e : LayoutError} (h : place known start entries = .error e) :
    ∃ offset, e = .tableOverflow offset ∧ maxSize < offset ∧ offset ≤ start + span entries := by
  induction entries generalizing known start with
  | nil => cases h
  | cons entry entries ih =>
    simp only [place] at h
    split at h
    next hlt => exact ⟨_, (Except.error.inj h).symm, hlt, by simp only [span]; omega⟩
    next =>
      obtain ⟨offset, rfl, hlt, hle⟩ := ih h
      exact ⟨offset, rfl, hlt, by simp only [span]; omega⟩

theorem isSome_getElem?_place {node : Nat} (h : place known start entries = .ok offsets)
    (hnode : node ∈ entries.map (·.node) ∨ known[node]?.isSome) : offsets[node]?.isSome := by
  induction entries generalizing known start with
  | nil =>
    cases h
    exact hnode.resolve_left (List.not_mem_nil)
  | cons entry entries ih =>
    simp only [place] at h
    split at h
    · cases h
    -- the first node has its offset now, and those placed before keep theirs
    · refine ih h ?_
      rw [Std.HashMap.getElem?_insert]
      rw [List.map_cons, List.mem_cons] at hnode
      grind

/-- Whether some entries have their offsets one after the other from `start` on. -/
def Placed (offsets : Offsets) : (start : Nat) → List (Entry α) → Prop
  | _, [] => True
  | start, entry :: entries =>
    offsets[entry.node]? = some start ∧ Placed offsets (start + entry.size) entries

theorem placed_append :
    Placed offsets start (entries ++ entries') ↔
      Placed offsets start entries ∧ Placed offsets (start + span entries) entries' := by
  induction entries generalizing start with
  | nil => simp [Placed, span]
  | cons entry entries ih =>
    simp only [List.cons_append, Placed, ih, span, Nat.add_assoc, and_assoc]

/-- Entries of different nodes keep the offsets at which they were placed. -/
theorem placed_of_place (hplace : place known start entries = .ok offsets)
    (hnodup : (entries.map (·.node)).Nodup) : Placed offsets start entries := by
  induction entries generalizing known start with
  | nil => trivial
  | cons entry entries ih =>
    rw [List.map_cons, List.nodup_cons] at hnodup
    simp only [place] at hplace
    split at hplace
    · cases hplace
    · refine ⟨?_, ih hplace hnodup.2⟩
      rw [getElem?_place hplace hnodup.1, Std.HashMap.getElem?_insert_self]

end

/-! ## Entries in a table -/

section

variable (table : Table) (pool : Pool) (offsets : Offsets)

/-- Whether some entries stand in a table from a position on, each at its offset. -/
def Lays : (start : Nat) → List (Entry Edit) → Prop
  | _, [] => True
  | start, entry :: entries =>
    offsets[entry.node]? = some start ∧ start ≤ maxSize ∧
      (∃ header shape, entry.header pool = .ok header ∧ entry.shape.words offsets = .ok shape ∧
        table.Holds start (header ++ shape)) ∧
        Lays (start + entry.size) entries

end

variable {table : Table} {pool : Pool} {offsets known : Offsets} {start : Nat}
  {entries entries' : List (Entry Edit)}

theorem lays_append :
    Lays table pool offsets start (entries ++ entries') ↔
      Lays table pool offsets start entries ∧
        Lays table pool offsets (start + span entries) entries' := by
  induction entries generalizing start with
  | nil => simp [Lays, span]
  | cons entry entries ih =>
    simp only [List.cons_append, Lays, ih, span, Nat.add_assoc, and_assoc]

/-- The words of entries stand where these were placed. -/
theorem lays_of_place {headers shapes : List (List UInt16)}
    (hplace : place known start entries = .ok offsets) (hplaced : Placed offsets start entries)
    (hheaders : List.Forall₂ (fun entry words => entry.header pool = .ok words) entries headers)
    (hshapes : List.Forall₂ (fun entry words => entry.shape.words offsets = .ok words) entries
      shapes)
    (hholds : table.Holds start (List.zipWith (· ++ ·) headers shapes).flatten) :
    Lays table pool offsets start entries := by
  induction entries generalizing known start headers shapes with
  | nil => trivial
  | cons entry entries ih =>
    obtain ⟨header, headers, hheader, hrest, rfl⟩ := List.forall₂_cons_left_iff.mp hheaders
    obtain ⟨shape, shapes, hshape, hrest', rfl⟩ := List.forall₂_cons_left_iff.mp hshapes
    obtain ⟨hoffset, hplaced⟩ := hplaced
    rw [List.zipWith_cons_cons, List.flatten_cons, holds_append] at hholds
    simp only [place] at hplace
    split at hplace
    next => cases hplace
    next hle =>
      -- the first entry takes as many words as the offsets are apart
      have hsize : (header ++ shape).length = entry.size := by
        rw [List.length_append, Entry.length_header hheader, Shape.length_words hshape, Entry.size]
      rw [hsize] at hholds
      exact ⟨hoffset, by omega, ⟨header, shape, hheader, hshape, hholds.1⟩,
        ih hplace hplaced hrest hrest' hholds.2⟩

end Table

/-! ## Entries of a trie -/

namespace Forest

variable {α : Type} (forest : Forest α)

/-- Entries belong to different nodes. -/
theorem sublist_numbers (branched : Bool) :
    List.Sublist ((forest.entries branched).map (·.node)) forest.numbers := by
  induction forest generalizing branched with
  | nil => exact List.Sublist.refl _
  | cons code index item children siblings ihc ihs =>
    rw [entries, numbers_cons]
    split
    next h =>
      -- the run passes through, and there is nothing beside
      refine (ihc false).trans (List.Sublist.trans ?_ (List.sublist_cons_self ..))
      exact List.sublist_append_left ..
    next =>
      -- there is an entry, which has the number of the node
      rw [List.map_cons, List.map_append]
      exact ((ihc false).append (ihs true)).cons_cons _

variable {forest : Forest α} {edge : Code × Nat} {edges : List (Code × Nat)}

/-- Trees that are branched off start with entries. -/
theorem snd_mem_of_mem_edges (h : edge ∈ forest.edges) :
    edge.2 ∈ (forest.entries true).map (·.node) := by
  induction forest with
  | nil => cases h
  | cons code index item children siblings _ ihs =>
    rcases List.mem_cons.mp h with rfl | h
    · simp [entries]
    · simpa [entries] using .inr (.inr (by simpa using ihs h))

/-- The branches of a shape lead to the entries of the trees below. -/
theorem snd_mem_of_shape_eq_branch (h : forest.shape = .branch edges) (hedge : edge ∈ edges) :
    edge.2 ∈ (forest.entries false).map (·.node) := by
  match forest with
  | nil => cases h
  -- a single tree has no branches: its shape is a run
  | cons code index item children nil =>
    simp only [shape, isEmpty, if_true] at h
    split at h
    · cases hshape : children.shape <;> rw [hshape] at h <;> cases h
    · cases h
  -- with trees beside it, each of them starts with an entry
  | cons code index item children (cons c n i below beside) =>
    simp only [shape, isEmpty, Bool.false_eq_true, if_false, Shape.branch.injEq] at h
    have hmem : edge ∈ (cons code index item children (cons c n i below beside)).edges := by
      rwa [← h] at hedge
    have hnode := snd_mem_of_mem_edges hmem
    simpa [entries, isEmpty] using hnode

/-- Every branch leads to an entry. -/
theorem snd_mem_of_mem_entries {branched : Bool} {entry : Entry α}
    (h : entry ∈ forest.entries branched) (hshape : entry.shape = .branch edges)
    (hedge : edge ∈ edges) : edge.2 ∈ (forest.entries branched).map (·.node) := by
  induction forest generalizing branched with
  | nil => cases h
  | cons code index item children siblings ihc ihs =>
    rw [entries] at h ⊢
    split at h
    -- no entry here, so all are those below
    next hrun => rw [if_pos hrun]; exact ihc h
    next hend =>
      rw [if_neg hend, List.map_cons, List.map_append, List.mem_cons, List.mem_append]
      rcases List.mem_cons.mp h with rfl | h
      -- the entry of the node itself, which branches to the trees below
      · exact .inr (.inl (snd_mem_of_shape_eq_branch hshape hedge))
      · rcases List.mem_append.mp h with h | h
        · exact .inr (.inl (ihc h))
        · exact .inr (.inr (ihs h))

/-- The items of entries are those of the trees. -/
theorem exists_mem_toList_of_mem_entries {branched : Bool} {entry : Entry α} {a : α}
    (h : entry ∈ forest.entries branched) (hitem : entry.item = some a) :
    ∃ path, (path, a) ∈ forest.toList := by
  induction forest generalizing branched with
  | nil => cases h
  | cons code index item children siblings ihc ihs =>
    rw [entries] at h
    simp only [mem_toList_cons]
    split at h
    next =>
      obtain ⟨path, hpath⟩ := ihc h
      exact ⟨code :: path, .inr (.inl ⟨path, rfl, hpath⟩)⟩
    next =>
      rcases List.mem_cons.mp h with rfl | h
      · exact ⟨[code], .inl ⟨rfl, hitem⟩⟩
      · rcases List.mem_append.mp h with h | h
        · obtain ⟨path, hpath⟩ := ihc h
          exact ⟨code :: path, .inr (.inl ⟨path, rfl, hpath⟩)⟩
        · obtain ⟨path, hpath⟩ := ihs h
          exact ⟨path, .inr (.inr hpath)⟩

end Forest

namespace Trie

variable {t : Trie Edit} {pool : Pool} {words : List UInt16}

theorem WellFormed.nodup_entries (h : t.WellFormed) : (t.entries.map (·.node)).Nodup := by
  have hnumbers : (t.root.index :: t.root.children.numbers).Nodup :=
    h.numbered.nodup_iff.mpr List.nodup_range
  rw [entries, List.map_cons]
  exact hnumbers.sublist ((Forest.sublist_numbers _ _).cons_cons _)

theorem words_eq_ok_iff :
    t.words pool = .ok words ↔ ∃ headers offsets shapes,
      List.Forall₂ (fun entry words => entry.header pool = .ok words) t.entries headers ∧
        Table.place ∅ 0 t.entries = .ok offsets ∧
          List.Forall₂ (fun entry words => entry.shape.words offsets = .ok words) t.entries shapes ∧
            words = (List.zipWith (· ++ ·) headers shapes).flatten := by
  unfold Trie.words
  simp only [bind_eq_ok_iff, mapM_eq_ok_iff]
  constructor
  · rintro ⟨headers, hheaders, offsets, hplace, shapes, hshapes, h⟩
    exact ⟨headers, offsets, shapes, hheaders, hplace, hshapes, (Except.ok.inj h).symm⟩
  · rintro ⟨headers, offsets, shapes, hheaders, hplace, hshapes, rfl⟩
    exact ⟨headers, hheaders, offsets, hplace, shapes, hshapes, rfl⟩

/-- The table of a trie has as many words as its entries take. -/
theorem length_words (h : t.words pool = .ok words) : words.length = Table.span t.entries := by
  rw [words_eq_ok_iff] at h
  obtain ⟨headers, offsets, shapes, hheaders, -, hshapes, rfl⟩ := h
  generalize t.entries = entries at hheaders hshapes
  -- header and shape of each entry together have its size
  induction hheaders generalizing shapes with
  | nil => rfl
  | cons hheader hheaders ih =>
    obtain ⟨shape, shapes, hshape, hrest, rfl⟩ := List.forall₂_cons_left_iff.mp hshapes
    rw [List.zipWith_cons_cons, List.flatten_cons, List.length_append, ih shapes hrest,
      List.length_append, Entry.length_header hheader, Shape.length_words hshape]
    simp [Table.span, Entry.size]

theorem snd_mem_of_mem_entries {entry : Entry Edit} {edges : List (Code × Nat)} {edge : Code × Nat}
    (h : entry ∈ t.entries) (hshape : entry.shape = .branch edges) (hedge : edge ∈ edges) :
    edge.2 ∈ t.entries.map (·.node) := by
  rw [entries, List.map_cons, List.mem_cons]
  rcases List.mem_cons.mp h with rfl | h
  · exact .inr (Forest.snd_mem_of_shape_eq_branch hshape hedge)
  · exact .inr (Forest.snd_mem_of_mem_entries h hshape hedge)

theorem exists_mem_toList_of_mem_entries {entry : Entry Edit} {edit : Edit}
    (h : entry ∈ t.entries) (hitem : entry.item = some edit) : ∃ path, (path, edit) ∈ t.toList := by
  rcases List.mem_cons.mp h with rfl | h
  · exact ⟨[], Node.mem_toList_iff_or.mpr (.inl ⟨rfl, hitem⟩)⟩
  · obtain ⟨path, hpath⟩ := Forest.exists_mem_toList_of_mem_entries h hitem
    exact ⟨path, Node.mem_toList_iff_or.mpr (.inr hpath)⟩

theorem exists_mapM_header (hfits : ∀ x ∈ t.toList, x.2.Fits pool) :
    ∃ headers, t.entries.mapM (Entry.header pool) = .ok headers := by
  refine exists_mapM_eq_ok_iff.mpr fun entry hentry => Entry.exists_header fun edit hitem => ?_
  obtain ⟨path, hmem⟩ := exists_mem_toList_of_mem_entries hentry hitem
  exact hfits _ hmem

theorem exists_mapM_words {offsets : Offsets} (hplace : Table.place ∅ 0 t.entries = .ok offsets) :
    ∃ shapes, t.entries.mapM (·.shape.words offsets) = .ok shapes := by
  refine exists_mapM_eq_ok_iff.mpr fun entry hentry => ?_
  cases hshape : entry.shape with
  | leaf => exact ⟨[], rfl⟩
  | chain codes => exact ⟨_, rfl⟩
  | branch edges =>
    -- a link fails for want of an offset only, and branches lead to entries
    have hlink : ∀ edge ∈ edges, ∃ words, Shape.link offsets edge = .ok words := by
      intro edge hedge
      have hnode := snd_mem_of_mem_entries hentry hshape hedge
      obtain ⟨offset, hoffset⟩ := Option.isSome_iff_exists.mp
        (Table.isSome_getElem?_place hplace (.inl hnode))
      exact ⟨_, by rw [Shape.link, hoffset]⟩
    obtain ⟨links, hlinks⟩ := exists_mapM_eq_ok_iff.mpr hlink
    exact ⟨_, by rw [Shape.words, hlinks]; rfl⟩

/-- A trie whose edits fit has words if its entries do not take more than offsets reach. -/
theorem exists_words_iff (hfits : ∀ x ∈ t.toList, x.2.Fits pool) :
    (∃ words, t.words pool = .ok words) ↔ Table.span t.entries ≤ Table.maxSize := by
  constructor
  · rintro ⟨words, h⟩
    obtain ⟨headers, offsets, shapes, -, hplace, -, -⟩ := words_eq_ok_iff.mp h
    simpa using (Table.exists_place_iff (Nat.zero_le _)).mp ⟨offsets, hplace⟩
  · intro hspan
    obtain ⟨headers, hheaders⟩ := exists_mapM_header hfits
    obtain ⟨offsets, hplace⟩ : ∃ offsets, Table.place ∅ 0 t.entries = .ok offsets :=
      (Table.exists_place_iff (Nat.zero_le _)).mpr (by rwa [Nat.zero_add])
    obtain ⟨shapes, hshapes⟩ := exists_mapM_words hplace
    exact ⟨_, words_eq_ok_iff.mpr ⟨headers, offsets, shapes, mapM_eq_ok_iff.mp hheaders, hplace,
      mapM_eq_ok_iff.mp hshapes, rfl⟩⟩

/-- Otherwise this is what is said. -/
theorem exists_eq_tableOverflow (hfits : ∀ x ∈ t.toList, x.2.Fits pool) {e : LayoutError}
    (h : t.words pool = .error e) :
    ∃ offset, e = .tableOverflow offset ∧ Table.maxSize < offset ∧ offset ≤ Table.span t.entries := by
  obtain ⟨headers, hheaders⟩ := exists_mapM_header hfits
  unfold words at h
  rw [hheaders, ok_bind] at h
  rcases bind_eq_error_iff.mp h with h | ⟨offsets, hplace, h⟩
  · simpa using Table.exists_eq_tableOverflow h
  · obtain ⟨shapes, hshapes⟩ := exists_mapM_words hplace
    rw [hshapes] at h
    cases h

theorem result_encode :
    (t.encode pool).result = t.words pool >>= fun words => .ok words.toArray := by
  simp only [encode, LoggedExcept.result_bind, LoggedExcept.result_ofExcept,
    LoggedExcept.result_report, LoggedExcept.result_pure, ok_bind]

theorem encode_eq_ok_iff {table : Table} :
    (t.encode pool).result = .ok table ↔ ∃ words, t.words pool = .ok words ∧ table = words.toArray := by
  simp only [result_encode, bind_eq_ok_iff, Except.ok.injEq, eq_comm (a := table)]

theorem encode_eq_error_iff {e : LayoutError} :
    (t.encode pool).result = .error e ↔ t.words pool = .error e := by
  simp only [result_encode, bind_eq_error_iff, reduceCtorEq, and_false, exists_false, or_false]

/-- The entries of a trie stand in its table. -/
theorem WellFormed.lays (h : t.WellFormed) (hwords : t.words pool = .ok words) :
    ∃ offsets, Table.Lays words.toArray pool offsets 0 t.entries := by
  obtain ⟨headers, offsets, shapes, hheaders, hplace, hshapes, rfl⟩ := words_eq_ok_iff.mp hwords
  exact ⟨offsets, Table.lays_of_place hplace (Table.placed_of_place hplace h.nodup_entries) hheaders
    hshapes (Table.holds_toArray _)⟩

end Trie

end Shorthand
