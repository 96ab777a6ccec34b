import Shorthand.Proofs.Artifact
import Shorthand.Proofs.Pool.Order
import Shorthand.Proofs.Table.Reading

/-!
# Tables that are cut off

A reader that gets through the table of a trie has looked at every word of it and at the bytes of every
output. So a table or a pool that lacks its end is never read to the end: the reader comes to the
place where the rest is missing, and up to there it reads what it would read otherwise.

The proof goes by induction on the trees, as for the whole table. Here it is given that the reader
succeeds, and every word that it got on its way is one of the whole table.

## Main statements

- `Reader.exhausts_decode`: a reader that succeeds has all words and bytes of a trie.
- `Pool.exists_last_output`: the last byte of a pool is that of some output.
- `Artifact.decode_truncated`: what is said about tables and pools that are cut off.
-/

namespace Shorthand

namespace Reader

variable {r : Reader} {table : Table} {pool : Pool} {offsets : Offsets} {offset position : Nat}
  {path : List Code} {found : List StoredMatch}

/-! ## Words of a beginning -/

section

variable (htable : r.table.toList <+: table.toList)
include htable

theorem holds_of_isPrefix {words : List UInt16} (h : table.Holds position words)
    (hsize : position + words.length ≤ r.table.size) : r.table.Holds position words := by
  have hlength : r.table.toList.length = r.table.size := Array.length_toList
  obtain ⟨rest, hrest⟩ := htable
  unfold Table.Holds at h ⊢
  rw [← hrest, List.drop_append_of_le_length (by omega)] at h
  refine List.prefix_of_prefix_length_le h (List.prefix_append ..) ?_
  rw [List.length_drop]
  omega

/-- A word that a reader gets is that of the whole table. -/
theorem eq_of_wordAt {word word' : UInt16} {words : List UInt16}
    (h : table.Holds position (word :: words)) (hword : r.wordAt position = .ok word') :
    word' = word := by
  obtain ⟨hlt, rfl⟩ := wordAt_eq_ok_iff.mp hword
  have hholds : table.Holds position [word] := (Table.holds_append.mp h).1
  obtain ⟨⟨_, heq⟩, -⟩ := Table.holds_cons.mp (holds_of_isPrefix htable hholds hlt)
  exact heq

/-- Where a reader gets through a run, it has the words of the run. -/
theorem add_two_le_of_visitShape {code next : Code} {words : List UInt16} (hcode : Table.Plain code)
    (h : table.Holds position (code :: next :: words)) (hle : offset ≤ position)
    (hvisit : r.visitShape offset position hle path = .ok found) : position + 2 ≤ r.table.size := by
  rw [visitShape_eq] at hvisit
  obtain ⟨word, hword, hvisit⟩ := bind_eq_ok_iff.mp hvisit
  obtain rfl := eq_of_wordAt htable h hword
  rw [if_neg hcode.ne_zero, if_neg (by simp [hcode.hasBranchFlag])] at hvisit
  obtain ⟨_, hchain, -⟩ := bind_eq_ok_iff.mp hvisit
  rw [chain_eq, hword, ok_bind, if_neg hcode.ne_zero] at hchain
  obtain ⟨_, hchain, -⟩ := bind_eq_ok_iff.mp hchain
  rw [chain_eq] at hchain
  obtain ⟨_, hnext, -⟩ := bind_eq_ok_iff.mp hchain
  exact lt_of_wordAt hnext

end

/-! ## Entries -/

/-- Whether a reader has the bytes of the output of an edit. -/
def HasOutput (r : Reader) (pool : Pool) (edit : Edit) : Prop :=
  ∀ outputOffset, pool.offset? edit.output = some outputOffset →
    outputOffset + edit.output.utf8ByteSize ≤ r.pool.size

/-- Whether a reader that gets past the shape of a node with these trees below it has all the words and
bytes that belong to them. -/
def Exhausts (r : Reader) (table : Table) (pool : Pool) (offsets : Offsets) (forest : Forest Edit) :
    Prop :=
  ∀ ⦃offset position : Nat⦄ (hle : offset ≤ position) ⦃path : List Code⦄ ⦃words : List UInt16⦄
    ⦃found : List StoredMatch⦄, forest ≠ .nil → forest.shape.words offsets = .ok words →
      table.Holds position words →
        Table.Lays table pool offsets (position + forest.shape.size) (forest.entries false) →
          r.visitShape offset position hle path = .ok found →
            position + forest.shape.size + Table.span (forest.entries false) ≤ r.table.size ∧
              ∀ x ∈ forest.toList, r.HasOutput pool x.2

/-- Whether this holds where the reader gets past a list of branches that lead to the trees. -/
def ExhaustsLinks (r : Reader) (table : Table) (pool : Pool) (offsets : Offsets)
    (forest : Forest Edit) : Prop :=
  ∀ ⦃offset position start : Nat⦄ (hle : offset ≤ position) ⦃path : List Code⦄
    ⦃links : List (List UInt16)⦄ ⦃found : List StoredMatch⦄, start ≤ r.table.size →
      List.Forall₂ (fun edge words => Shape.link offsets edge = .ok words) forest.edges links →
        table.Holds position (links.flatten ++ [0]) →
          Table.Lays table pool offsets start (forest.entries true) →
            r.visitLinks offset position hle path = .ok found →
              start + Table.span (forest.entries true) ≤ r.table.size ∧
                ∀ x ∈ forest.toList, r.HasOutput pool x.2

variable {code : Code} {index start : Nat} {item : Option Edit} {children siblings : Forest Edit}

/-- Past a run that passes through a node, a reader has what belongs to the trees below. -/
theorem exhausts_cons_of_run (htable : r.table.toList <+: table.toList) (hcode : Table.Plain code) (hover : children.Over Table.Plain)
    (hsingle : children.isSingle) (hchildren : Exhausts r table pool offsets children) :
    Exhausts r table pool offsets (.cons code index none children .nil) := by
  intro offset position hle path words found _ hwords hholds hlays hvisit
  obtain ⟨c, n, i, below, rfl⟩ := Forest.isSingle_iff.mp hsingle
  obtain ⟨codes, hshape⟩ := Forest.exists_shape_eq_chain c n i below
  simp only [Forest.shape_cons_of_run hsingle, hshape, Shape.prepend, Shape.words] at hwords
  obtain rfl := Except.ok.inj hwords
  rw [Forest.shape_cons_of_run hsingle, Forest.entries_cons_of_run hsingle] at hlays ⊢
  -- the reader goes on with the words of the run below
  have hsize := add_two_le_of_visitShape htable hcode hholds hle hvisit
  have hsplit : table.Holds position ([code, c] ++ (codes ++ [0])) := hholds
  have hfirst := (Table.holds_append.mp hsplit).1
  rw [visitShape_run hcode hover.1 (holds_of_isPrefix htable hfirst hsize)] at hvisit
  obtain ⟨hsize, houtputs⟩ := hchildren (Nat.le_succ_of_le hle) (by simp) (by rw [hshape]; rfl)
    (Table.holds_cons.mp hholds).2
    (by simpa [hshape, Shape.prepend, Shape.size, Nat.add_assoc, Nat.add_comm 1] using hlays) hvisit
  refine ⟨?_, Forest.forall_mem_toList_cons.mpr ⟨by simp, houtputs, List.forall_mem_nil _⟩⟩
  simpa [hshape, Shape.prepend, Shape.size, Nat.add_assoc, Nat.add_comm 1] using hsize

/-- Where a match is read that was laid out with a pool, the reader has its output. -/
theorem hasOutput_of_storedMatch (hpool : pool.WellFormed) {edit : Edit} {outputOffset : Nat}
    (houtput : pool.offset? edit.output = some outputOffset) {hasMore : Bool} {word : UInt16}
    (hpack : MatchWord.pack? ⟨hasMore, edit.outputFunc, edit.backspaces,
      edit.output.utf8ByteSize⟩ = some word) {stored : StoredMatch}
    (h : r.storedMatch offset word (UInt16.ofNat outputOffset) path = .ok stored) :
    r.HasOutput pool edit := by
  intro outputOffset' houtput'
  obtain rfl : outputOffset = outputOffset' := Option.some.inj (houtput.symm.trans houtput')
  unfold storedMatch at h
  simp only [MatchWord.ofWord_of_pack? hpack, hpool.toNat_ofNat houtput] at h
  split at h
  next hin => exact hin
  next => cases h

section

variable (htable : r.table.toList <+: table.toList) (hpool : pool.WellFormed)
include htable hpool

/-- A reader that gets past an entry has its words and bytes, and those of the trees below. -/
theorem exhausts_entry (hover : children.Over Table.Plain) (hitem : item.isSome ∨ children ≠ .nil)
    (hchildren : Exhausts r table pool offsets children)
    (hlays : Table.Lays table pool offsets start
      (⟨index, item, children.shape⟩ :: children.entries false))
    (hvisit : r.visit start path = .ok found) :
    start + Table.span (⟨index, item, children.shape⟩ :: children.entries false) ≤ r.table.size ∧
      (∀ edit, item = some edit → r.HasOutput pool edit) ∧
        ∀ x ∈ children.toList, r.HasOutput pool x.2 := by
  obtain ⟨-, -, ⟨header, shape, hheader, hshape, hholds⟩, hbelow⟩ := hlays
  rw [visit_eq] at hvisit
  obtain ⟨word, hword, hvisit⟩ := bind_eq_ok_iff.mp hvisit
  cases item with
  | none =>
    -- the entry starts with its shape
    have hne : children ≠ .nil := hitem.resolve_left (by simp)
    cases hheader
    obtain ⟨word', rest, rfl, hmatch⟩ := Forest.exists_words_eq_cons hne hover hshape
    obtain rfl := eq_of_wordAt htable hholds hword
    rw [if_neg (by simp [hmatch])] at hvisit
    obtain ⟨hsize, houtputs⟩ := hchildren (Nat.le_refl _) hne hshape hholds
      (by simpa [Entry.size] using hbelow) hvisit
    refine ⟨?_, by simp, houtputs⟩
    simpa [Table.span, Entry.size, Nat.add_assoc] using hsize
  | some edit =>
    -- it starts with a match word and the offset of the output
    obtain ⟨outputOffset, word', houtput, hpack, rfl⟩ := (Entry.header_eq_ok_iff rfl).mp hheader
    obtain rfl := eq_of_wordAt htable hholds hword
    rw [if_pos (MatchWord.isMatch_of_pack? hpack)] at hvisit
    have hsecond := (Table.holds_cons.mp hholds).2
    obtain ⟨_, hword', hvisit⟩ := bind_eq_ok_iff.mp hvisit
    obtain rfl := eq_of_wordAt htable hsecond hword'
    obtain ⟨stored, hstored, hvisit⟩ := bind_eq_ok_iff.mp hvisit
    have houtput := hasOutput_of_storedMatch hpool houtput hpack hstored
    -- the match word says whether there is anything below
    have hmore := MatchWord.hasBranchFlag_of_pack? hpack
    by_cases hne : children = .nil
    · subst hne
      refine ⟨lt_of_wordAt hword', ?_, List.forall_mem_nil _⟩
      rintro _ ⟨⟩
      exact houtput
    · have hflag : Table.hasBranchFlag word = true := by
        rw [hmore, bne_iff_ne, Ne, Forest.shape_eq_leaf_iff]
        exact hne
      rw [if_pos hflag] at hvisit
      obtain ⟨below, hvisit, -⟩ := bind_eq_ok_iff.mp hvisit
      obtain ⟨hsize, houtputs⟩ := hchildren (Nat.le_add_right start 2) hne hshape
        (Table.holds_cons.mp hsecond).2 (by simpa [Entry.size, Nat.add_assoc] using hbelow) hvisit
      refine ⟨by simpa [Table.span, Entry.size, Nat.add_assoc] using hsize, ?_, houtputs⟩
      rintro _ ⟨⟩
      exact houtput

/-! ## Trees -/

/-- A reader that gets past a branch has the words and bytes of its tree and of those beside it. -/
theorem exhausts_branch (hover : (Forest.cons code index item children siblings).Over Table.Plain)
    (hitem : item.isSome ∨ children ≠ .nil) (hchildren : Exhausts r table pool offsets children)
    (hsiblings : ExhaustsLinks r table pool offsets siblings) (hle : offset ≤ position)
    {word : UInt16} (hword : Table.withoutBranchFlag word = code) {link : List UInt16}
    {links : List (List UInt16)} (hlink : Shape.link offsets (code, index) = .ok link)
    (hlinks : List.Forall₂ (fun edge words => Shape.link offsets edge = .ok words) siblings.edges
      links)
    (hholds : table.Holds position (word :: link.tail ++ (links.flatten ++ [0])))
    (hlays : Table.Lays table pool offsets start
      (⟨index, item, children.shape⟩ :: (children.entries false ++ siblings.entries true)))
    (hvisit : r.visitLinks offset position hle path = .ok found) :
    start + Table.span (⟨index, item, children.shape⟩ ::
      (children.entries false ++ siblings.entries true)) ≤ r.table.size ∧
        ∀ x ∈ (Forest.cons code index item children siblings).toList, r.HasOutput pool x.2 := by
  obtain ⟨hcode, hover, -⟩ := hover
  rw [← List.cons_append, Table.lays_append] at hlays
  have hoffset := hlays.1.1
  have hmax := hlays.1.2.1
  -- the link names the offset at which the entry of the tree stands
  simp only [Shape.link, hoffset] at hlink
  obtain rfl := Except.ok.inj hlink
  have htarget : (UInt16.ofNat start).toNat = start := Table.toNat_ofNat_of_le hmax
  rw [visitLinks_eq] at hvisit
  obtain ⟨_, hfirst, hvisit⟩ := bind_eq_ok_iff.mp hvisit
  obtain rfl := eq_of_wordAt htable hholds hfirst
  rw [hword, if_neg hcode.ne_zero] at hvisit
  obtain ⟨_, hsecond, hvisit⟩ := bind_eq_ok_iff.mp hvisit
  obtain rfl := eq_of_wordAt htable (Table.holds_cons.mp hholds).2 hsecond
  rw [htarget] at hvisit
  split at hvisit
  · cases hvisit
  · obtain ⟨first, hfirst, hvisit⟩ := bind_eq_ok_iff.mp hvisit
    obtain ⟨rest, hrest, -⟩ := bind_eq_ok_iff.mp hvisit
    obtain ⟨hsize, hedit, houtputs⟩ :=
      exhausts_entry htable hpool hover hitem hchildren hlays.1 hfirst
    obtain ⟨hsize', houtputs'⟩ := hsiblings (Nat.le_add_right_of_le hle) hsize hlinks
      (Table.holds_append.mp hholds).2 hlays.2 hrest
    refine ⟨?_, ?_⟩
    · rw [← List.cons_append, Table.span_append]
      omega
    · exact Forest.forall_mem_toList_cons.mpr ⟨hedit, houtputs, houtputs'⟩

/-- Past a run that ends at a node, a reader has what belongs to the entry that follows. -/
theorem exhausts_cons_of_end (hcode : Table.Plain code) (hover : children.Over Table.Plain)
    (hitem : item.isSome ∨ children ≠ .nil) (hrun : (item.isNone && children.isSingle) = false)
    (hchildren : Exhausts r table pool offsets children) :
    Exhausts r table pool offsets (.cons code index item children .nil) := by
  intro offset position hle path words found _ hwords hholds hlays hvisit
  rw [Forest.shape_cons_of_end hrun] at hwords hlays ⊢
  obtain rfl := Except.ok.inj hwords
  rw [Forest.entries_cons_of_end hrun] at hlays ⊢
  have hsize := add_two_le_of_visitShape htable hcode hholds hle hvisit
  rw [visitShape_run_end hcode (holds_of_isPrefix htable hholds hsize)] at hvisit
  obtain ⟨hsize, hedit, houtputs⟩ := exhausts_entry htable hpool hover hitem hchildren hlays hvisit
  exact ⟨hsize, Forest.forall_mem_toList_cons.mpr ⟨hedit, houtputs, List.forall_mem_nil _⟩⟩

/-- A reader that gets past the shape or the branches of some trees has all words and bytes of them. -/
theorem exhausts {forest : Forest Edit} (hover : forest.Over Table.Plain)
    (hfruitful : forest.Fruitful) :
    Exhausts r table pool offsets forest ∧ ExhaustsLinks r table pool offsets forest := by
  -- as for the whole table, a tree is entered from a run or from a list
  induction forest with
  | nil =>
    refine ⟨fun _ _ _ _ _ _ hne => absurd rfl hne, fun _ _ _ _ _ _ _ hsize _ _ _ _ => ?_⟩
    exact ⟨hsize, List.forall_mem_nil _⟩
  | cons code index item children siblings ihc ihs =>
    obtain ⟨hitem, hfruitful, hfruitful'⟩ := hfruitful
    have hchildren := (ihc hover.2.1 hfruitful).1
    have hsiblings := (ihs hover.2.2 hfruitful').2
    constructor
    · cases siblings with
      | nil =>
        cases hrun : item.isNone && children.isSingle with
        | true =>
          obtain ⟨hnone, hsingle⟩ := Bool.and_eq_true_iff.mp hrun
          obtain rfl := Option.isNone_iff_eq_none.mp hnone
          exact exhausts_cons_of_run htable hover.1 hover.2.1 hsingle hchildren
        | false =>
          exact exhausts_cons_of_end htable hpool hover.1 hover.2.1 hitem hrun hchildren
      | cons c n i below beside =>
        -- the first code has the branch flag
        intro offset position hle path words found _ hwords hholds hlays hvisit
        rw [Forest.shape_cons_cons] at hwords hlays ⊢
        obtain ⟨links, hlinks, hwords⟩ := bind_eq_ok_iff.mp hwords
        obtain ⟨link, links, hlink, hrest, rfl⟩ :=
          List.forall₂_cons_left_iff.mp (mapM_eq_ok_iff.mp hlinks)
        obtain ⟨target, rfl⟩ := Shape.exists_link_eq_cons hlink
        obtain rfl := Except.ok.inj hwords
        rw [visitShape_eq] at hvisit
        obtain ⟨_, hword, hvisit⟩ := bind_eq_ok_iff.mp hvisit
        obtain rfl := eq_of_wordAt htable hholds hword
        rw [if_neg hover.1.withBranchFlag_ne_zero, if_pos hover.1.hasBranchFlag_withBranchFlag]
          at hvisit
        exact exhausts_branch htable hpool hover hitem hchildren hsiblings hle
          hover.1.withoutBranchFlag_withBranchFlag hlink hrest
          (by simpa [Table.flagFirst] using hholds) hlays hvisit
    · intro offset position start hle path links found _ hlinks hholds hlays hvisit
      obtain ⟨link, links, hlink, hrest, rfl⟩ := List.forall₂_cons_left_iff.mp hlinks
      obtain ⟨target, rfl⟩ := Shape.exists_link_eq_cons hlink
      exact exhausts_branch htable hpool hover hitem hchildren hsiblings hle
        hover.1.withoutBranchFlag hlink hrest (by simpa using hholds) hlays hvisit

/-- A reader that succeeds has all words and bytes of a trie. -/
theorem exhausts_decode {t : Trie Edit} (h : t.WellFormed)
    (hplain : ∀ x ∈ t.toList, ∀ code ∈ x.1, Table.Plain code)
    (hwords : t.words pool = .ok table.toList) (hne : r.table.isEmpty = false)
    (hdecode : r.decode = .ok found) :
    table.size ≤ r.table.size ∧ ∀ x ∈ t.toList, r.HasOutput pool x.2 := by
  obtain ⟨offsets, hlays⟩ := h.lays hwords
  have hover : t.root.children.Over Table.Plain :=
    h.fruitful.over fun x hx => hplain x (List.mem_append_right _ hx)
  -- the table has a word, so the trie has an item
  have hitem : t.root.item.isSome ∨ t.root.children ≠ .nil := by
    by_contra hempty
    rw [words_eq_nil hempty hwords, List.prefix_nil, Array.toList_eq_nil_iff] at htable
    rw [htable] at hne
    cases hne
  have hlength := Trie.length_words hwords
  rw [Array.length_toList] at hlength
  rw [decode, hne] at hdecode
  obtain ⟨hsize, hroot, houtputs⟩ := exhausts_entry htable hpool hover hitem
    (exhausts htable hpool hover h.fruitful).1 hlays hdecode
  refine ⟨?_, fun x hx => ?_⟩
  · rw [hlength]
    simpa [Trie.entries] using hsize
  · rcases List.mem_append.mp hx with hx | hx
    · obtain ⟨edit, hedit, rfl⟩ := List.mem_map.mp hx
      exact hroot edit (by simpa using hedit)
    · exact houtputs x hx

end

end Reader

/-! ## Artifacts -/

namespace Artifact

variable {alphabet : Alphabet} {rules : List Rule} {artifact : Artifact} {table : Table}
  {bytes : Array UInt8}

/-- A compiled table is not empty, since there is a rule. -/
theorem size_table_pos (h : (ofRules alphabet rules).result = .ok artifact) :
    0 < artifact.table.size := by
  obtain ⟨shortest, longest, m, edits, pool, words, hshortest, -, hrules, hfresh, houtputs, hwords,
    hartifact⟩ := ofRules_eq_ok_iff.mp h
  have hwf := Matcher.wellFormed_of_ofRules hrules
  have hne : rules ≠ [] := by
    rintro rfl
    cases hshortest
  have hdecode := hwf.decode_words (Pool.wellFormed_of_ofOutputs houtputs) hwords
  rw [hartifact, List.size_toArray, List.length_pos_iff]
  rintro rfl
  -- nothing is read from an empty table, but every rule is stored
  have hstored : m.stored edits = [] := (Except.ok.inj hdecode).symm
  have hlength := (hwf.perm_stored hfresh.length_eq.symm).length_eq
  rw [hstored, List.length_zipWith, ← hfresh.length_eq, Nat.min_self, Matcher.goals_of_ofRules hrules,
    Matcher.length_goalsOf] at hlength
  exact hne (List.length_eq_zero_iff.mp hlength.symm)

/-- A reader of the beginning of a compiled table and of its pool comes to the end of what it has, or
it has all words and the last byte. -/
theorem decode_of_isPrefix (h : (ofRules alphabet rules).result = .ok artifact)
    (htable : table.toList <+: artifact.table.toList) (hbytes : bytes.toList <+: artifact.pool.toList)
    (hne : 0 < table.size) :
    (∃ offset, table.size ≤ offset ∧ offset < artifact.table.size ∧
        (Reader.mk alphabet table bytes).decode = .error (.unexpectedEnd offset)) ∨
      (∃ offset, bytes.size < artifact.pool.size ∧
        (Reader.mk alphabet table bytes).decode = .error (.outputOutOfRange offset)) ∨
      artifact.table.size ≤ table.size ∧ artifact.pool.size ≤ bytes.size := by
  obtain ⟨_, _, m, edits, pool, words, -, -, hrules, hfresh, houtputs, hwords, hartifact⟩ :=
    ofRules_eq_ok_iff.mp h
  rw [hartifact] at htable hbytes ⊢
  have hwf := Matcher.wellFormed_of_ofRules hrules
  have hwfPool := Pool.wellFormed_of_ofOutputs houtputs
  obtain rfl := Matcher.alphabet_of_ofRules hrules
  have hempty : table.isEmpty = false := Array.isEmpty_eq_false_iff_exists_mem.mpr
    ⟨table[0], Array.getElem_mem hne⟩
  -- the whole table is read without an error
  have hextends : Reader.Extends ⟨m.alphabet, table, bytes⟩ ⟨m.alphabet, words.toArray, pool.data⟩ :=
    ⟨rfl, htable, hbytes⟩
  have hdecode := hwf.decode_words hwfPool hwords
  have hcontinues := hextends.decode hempty
  rw [hdecode] at hcontinues
  generalize hout : (Reader.mk m.alphabet table bytes).decode = out at hcontinues ⊢
  cases hcontinues with
  | tableEnd _ hle hlt => exact .inl ⟨_, hle, hlt, rfl⟩
  | poolEnd _ hlt => exact .inr (.inl ⟨_, hlt, rfl⟩)
  | same =>
    obtain ⟨hsize, houtput⟩ := Reader.exhausts_decode htable hwfPool (hwf.trie.map _)
      (fun _ hx _ hcode => (hwf.knows_of_mem_edits hx hcode).plain) hwords hempty hout
    refine .inr (.inr ⟨hsize, ?_⟩)
    show pool.data.size ≤ bytes.size
    rcases Nat.eq_zero_or_pos pool.data.size with hzero | hpos
    · exact hzero ▸ Nat.zero_le bytes.size
    -- the last output of the pool is that of some rule
    · obtain ⟨output, hmem, offset, hoffset, hend⟩ :=
        Pool.exists_last_output houtputs (Nat.ne_of_gt hpos)
      obtain ⟨edit, hedit, rfl⟩ := List.mem_map.mp hmem
      have hperm := hwf.perm_edits hfresh.length_eq.symm
      obtain ⟨x, hx, rfl⟩ := List.mem_map.mp (hperm.mem_iff.mpr hedit)
      rw [← hend]
      exact houtput x hx offset hoffset

/-- A compiled table that lacks words at its end is not read, and neither is one whose pool lacks bytes.
The reader says so at a word that is missing, or at an entry whose output is, and nothing else goes
wrong before. -/
theorem decode_truncated (h : (ofRules alphabet rules).result = .ok artifact) :
    (∀ k, 0 < k → k < artifact.table.size → ∃ offset, k ≤ offset ∧ offset < artifact.table.size ∧
      (Reader.mk alphabet (artifact.table.take k) artifact.pool).decode =
        .error (.unexpectedEnd offset)) ∧
    ∀ k, k < artifact.pool.size → ∃ offset,
      (Reader.mk alphabet artifact.table (artifact.pool.take k)).decode =
        .error (.outputOutOfRange offset) := by
  constructor
  · intro k hk hlt
    have hsize : (artifact.table.take k).size = k := by simp [Nat.min_eq_left (Nat.le_of_lt hlt)]
    have hprefix : (artifact.table.take k).toList <+: artifact.table.toList := by
      simp [List.take_prefix]
    have hread := decode_of_isPrefix h hprefix (List.prefix_refl artifact.pool.toList)
      (by rwa [hsize])
    rw [hsize] at hread
    rcases hread with hread | ⟨_, hpool, -⟩ | ⟨htable, -⟩
    · exact hread
    · exact absurd hpool (Nat.lt_irrefl _)
    · exact absurd htable (Nat.not_le.mpr hlt)
  · intro k hlt
    have hsize : (artifact.pool.take k).size = k := by simp [Nat.min_eq_left (Nat.le_of_lt hlt)]
    have hprefix : (artifact.pool.take k).toList <+: artifact.pool.toList := by
      simp [List.take_prefix]
    have hread := decode_of_isPrefix h (List.prefix_refl artifact.table.toList) hprefix
      (size_table_pos h)
    rw [hsize] at hread
    rcases hread with ⟨_, hle, hlt', -⟩ | ⟨offset, -, hread⟩ | ⟨-, hpool⟩
    · exact absurd hlt' (Nat.not_lt.mpr hle)
    · exact ⟨offset, hread⟩
    · exact absurd hpool (Nat.not_le.mpr hlt)

/-- The table of this rule has a run of three words and an entry of two, and its pool has one byte. -/
theorem decode_truncated_one_rule :
    ∃ alphabet artifact offset, alphabet = ⟨['★'], ['☆'], ' ', by decide, by decide⟩ ∧
      (ofRules alphabet [⟨1, "ab", "x"⟩]).result = .ok artifact ∧
      artifact.table.size = 5 ∧ artifact.pool.size = 1 ∧
      (Reader.mk alphabet (artifact.table.take 4) artifact.pool).decode =
        .error (.unexpectedEnd 4) ∧
      (Reader.mk alphabet artifact.table (artifact.pool.take 0)).decode =
        .error (.outputOutOfRange offset) := by
  obtain ⟨alphabet, m, goal, halphabet, hrules, hgoals, hevaluate, hspan⟩ :
      ∃ alphabet m goal, alphabet = ⟨['★'], ['☆'], ' ', by decide, by decide⟩ ∧
        Matcher.ofRules alphabet [⟨1, "ab", "x"⟩] = .ok m ∧ m.goals = [goal] ∧
        (m.evaluateUpTo 1 goal).run = some (.ok ⟨1, 0, "x"⟩) ∧
        Table.span (m.edits [⟨1, 0, "x"⟩]).entries = 5 :=
    ⟨_, _, _, rfl, rfl, rfl, rfl, rfl⟩
  have hwf := Matcher.wellFormed_of_ofRules hrules
  have hfresh : List.Forall₂ (fun goal edit => m.fresh goal = .ok edit) m.goals [⟨1, 0, "x"⟩] := by
    rw [hgoals]
    exact .cons ((hwf.fresh_eq_ok_iff (by simp [hgoals])).mpr ⟨1, hevaluate⟩) .nil
  have hgreedy : Pool.greedy ["x"] = #[120] := by
    have horder : Pool.placementOrder ["x"] = ["x"] := by
      simp [Pool.placementOrder]
      rfl
    rw [Pool.greedy, horder, List.foldl_cons, List.foldl_nil, Pool.grow, Pool.findFrom?]
    rfl
  obtain ⟨pool, hpool⟩ := Pool.exists_ofOutputs_iff.mpr
    ⟨(by decide : ∀ output ∈ ["x"], Pool.isAscii output), by rw [hgreedy]; decide⟩
  obtain ⟨words, hwords⟩ := (hwf.exists_words_iff hfresh hpool).mpr (by rw [hspan]; decide)
  have h := ofRules_eq_ok_iff.mpr
    ⟨_, _, m, _, pool, words, rfl, rfl, hrules, hfresh, hpool, hwords, rfl⟩
  have hsize : words.toArray.size = 5 := by
    rw [List.size_toArray, Trie.length_words hwords, hspan]
  have hbytes : pool.data.size = 1 := by rw [Pool.data_of_ofOutputs hpool, hgreedy]; rfl
  obtain ⟨htable, hcut⟩ := decode_truncated h
  obtain ⟨offset, hle, hlt, hend⟩ := htable 4 (by decide) (by rw [hsize]; decide)
  obtain ⟨offset', hrange⟩ := hcut 0 (by rw [hbytes]; decide)
  obtain rfl : offset = 4 := by
    rw [hsize] at hlt
    omega
  exact ⟨alphabet, _, offset', halphabet, h, hsize, hbytes, hend, hrange⟩

end Artifact

end Shorthand
