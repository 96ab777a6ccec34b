import Shorthand.Table.Reader
import Shorthand.Proofs.Outcome

/-!
# Walks through a table

A reader looks at one word after another, and each word tells it where to go on. `Reader.visit_eq` and
its companions write the walk that way, with `Reader.wordAt` for a single look.

So every match that is found was read from an entry, with its output where the entry says. And two
readers of which one has more words than the other go the same way, until the shorter table or pool ends
(`Reader.Continues`).

## Main statements

- `Reader.visit_eq`, `Reader.visitShape_eq`, `Reader.visitLinks_eq`: the walk word by word.
- `Reader.exists_readsAt_of_decode`: every match is read from an entry.
- `Reader.Extends.visit`: what a longer table and pool change in a walk.
- `Reader.Extends.decode`: what they change in the outcome.
-/

namespace Shorthand.Reader

variable {r r' : Reader} {offset position : Nat} {path : List Code} {word : UInt16}

/-! ## The walk word by word -/

/-- The word at a position. -/
def wordAt (r : Reader) (position : Nat) : Except ReadError UInt16 :=
  if h : position < r.table.size then .ok r.table[position] else .error (.unexpectedEnd position)

theorem wordAt_eq_ok_iff :
    r.wordAt position = .ok word ↔ ∃ h : position < r.table.size, r.table[position] = word := by
  unfold Reader.wordAt
  split
  next h => simp [h]
  next h => simp [h]

theorem lt_of_wordAt (h : r.wordAt position = .ok word) : position < r.table.size :=
  (wordAt_eq_ok_iff.mp h).1

theorem chain_eq (r : Reader) (position : Nat) (path : List Code) :
    r.chain position path =
      r.wordAt position >>= fun word =>
        if word = 0 then .ok (path, ⟨position + 1, Nat.lt_succ_self _⟩)
        else r.chain (position + 1) (word :: path) >>= fun (path, ⟨next, hnext⟩) =>
          .ok (path, ⟨next, Nat.lt_of_succ_lt hnext⟩) := by
  rw [chain, wordAt]
  split
  · rw [ok_bind]
    split
    · rfl
    · cases r.chain (position + 1) (r.table[position] :: path) <;> rfl
  · rfl

theorem visit_eq (r : Reader) (offset : Nat) (path : List Code) :
    r.visit offset path =
      r.wordAt offset >>= fun word =>
        if Table.isMatch word then
          r.wordAt (offset + 1) >>= fun outputOffset =>
            r.storedMatch offset word outputOffset path >>= fun stored =>
              if Table.hasBranchFlag word then
                r.visitShape offset (offset + 2) (Nat.le_add_right _ _) path >>= fun below =>
                  .ok (stored :: below)
              else .ok [stored]
        else r.visitShape offset offset (Nat.le_refl _) path := by
  rw [visit, wordAt]
  split
  · rw [ok_bind]
    split
    · rw [wordAt]
      split
      · rw [ok_bind]
        cases r.storedMatch offset r.table[offset] r.table[offset + 1] path with
        | error e => rfl
        | ok stored =>
          rw [ok_bind]
          simp only
          split
          · cases r.visitShape offset (offset + 2) (Nat.le_add_right _ _) path <;> rfl
          · rfl
      · rfl
    · rfl
  · rfl

theorem visitShape_eq (r : Reader) (offset position : Nat) (hle : offset ≤ position)
    (path : List Code) :
    r.visitShape offset position hle path =
      r.wordAt position >>= fun word =>
        if word = 0 then .error (.emptyEntry offset)
        else if Table.hasBranchFlag word then r.visitLinks offset position hle path
        else r.chain position path >>= fun (path, ⟨next, _⟩) => r.visit next path := by
  rw [visitShape, wordAt]
  split
  · rw [ok_bind]
    split
    · rfl
    · split
      · rfl
      · cases r.chain position path <;> rfl
  · rfl

theorem visitLinks_eq (r : Reader) (offset position : Nat) (hle : offset ≤ position)
    (path : List Code) :
    r.visitLinks offset position hle path =
      r.wordAt position >>= fun word =>
        if Table.withoutBranchFlag word = 0 then .ok []
        else r.wordAt (position + 1) >>= fun target =>
          if target.toNat ≤ offset then .error (.backwardLink (position + 1) target.toNat)
          else r.visit target.toNat (Table.withoutBranchFlag word :: path) >>= fun first =>
            r.visitLinks offset (position + 2) (Nat.le_add_right_of_le hle) path >>= fun rest =>
              .ok (first ++ rest) := by
  rw [visitLinks, wordAt]
  split
  · rw [ok_bind]
    simp only
    split
    · rfl
    · rw [wordAt]
      split
      · rw [ok_bind]
        split
        · rfl
        · cases r.visit r.table[position + 1].toNat
              (Table.withoutBranchFlag r.table[position] :: path) with
          | error e => rfl
          | ok first =>
            rw [ok_bind]
            cases r.visitLinks offset (position + 2) (Nat.le_add_right_of_le hle) path <;> rfl
      · rfl
  · rfl

/-! ## Where matches stand -/

/-- Whether a match is read from the entry at a position. -/
def ReadsAt (r : Reader) (position : Nat) (s : StoredMatch) : Prop :=
  ∃ word outputOffset path, r.wordAt position = .ok word ∧ Table.isMatch word ∧
    r.wordAt (position + 1) = .ok outputOffset ∧
      r.storedMatch position word outputOffset path = .ok s

/-- What is read from an entry is what its match word and the pool say. -/
theorem storedMatch_eq_ok_iff {outputOffset : UInt16} {s : StoredMatch} :
    r.storedMatch position word outputOffset path = .ok s ↔
      outputOffset.toNat + (MatchWord.ofWord word).length ≤ r.pool.size ∧
        ∃ context, r.context path = .ok context ∧
          s = ⟨String.ofList context, (MatchWord.ofWord word).backspaces,
            (MatchWord.ofWord word).outputFunc,
            String.ofList ((r.pool.extract outputOffset.toNat
              (outputOffset.toNat + (MatchWord.ofWord word).length)).toList.map
                fun byte => Char.ofNat byte.toNat)⟩ := by
  unfold storedMatch
  simp only
  split
  next hin =>
    cases r.context path <;> simp [hin, eq_comm]
  next hout => simp [hout]

mutual

/-- Every match that is found in a walk is read from an entry. -/
theorem exists_readsAt_of_visit {offset : Nat} {path : List Code} {found : List StoredMatch}
    (hvisit : r.visit offset path = .ok found) :
    ∀ s ∈ found, ∃ position, r.ReadsAt position s := by
  rw [visit_eq] at hvisit
  obtain ⟨word, hword, hvisit⟩ := bind_eq_ok_iff.mp hvisit
  have hlt := lt_of_wordAt hword
  split at hvisit
  next hmatch =>
    obtain ⟨outputOffset, houtput, hvisit⟩ := bind_eq_ok_iff.mp hvisit
    obtain ⟨stored, hstored, hvisit⟩ := bind_eq_ok_iff.mp hvisit
    have hreads : r.ReadsAt offset stored := ⟨word, outputOffset, path, hword, hmatch, houtput, hstored⟩
    split at hvisit
    · obtain ⟨below, hbelow, hvisit⟩ := bind_eq_ok_iff.mp hvisit
      obtain rfl := Except.ok.inj hvisit
      exact List.forall_mem_cons.mpr
        ⟨⟨offset, hreads⟩, exists_readsAt_of_visitShape (Nat.le_add_right _ _) hbelow⟩
    · obtain rfl := Except.ok.inj hvisit
      exact List.forall_mem_singleton.mpr ⟨offset, hreads⟩
  next => exact exists_readsAt_of_visitShape (Nat.le_refl _) hvisit
termination_by (r.table.size - offset, r.table.size + 2)

theorem exists_readsAt_of_visitShape {offset position : Nat} {path : List Code}
    {found : List StoredMatch} (hle : offset ≤ position)
    (hvisit : r.visitShape offset position hle path = .ok found) :
    ∀ s ∈ found, ∃ position, r.ReadsAt position s := by
  rw [visitShape_eq] at hvisit
  obtain ⟨word, hword, hvisit⟩ := bind_eq_ok_iff.mp hvisit
  have hlt := lt_of_wordAt hword
  split at hvisit
  next => cases hvisit
  next =>
    split at hvisit
    · exact exists_readsAt_of_visitLinks hle hvisit
    · obtain ⟨⟨below, next, hnext⟩, -, hvisit⟩ := bind_eq_ok_iff.mp hvisit
      exact exists_readsAt_of_visit hvisit
termination_by (r.table.size - offset, r.table.size + 1)

theorem exists_readsAt_of_visitLinks {offset position : Nat} {path : List Code}
    {found : List StoredMatch} (hle : offset ≤ position)
    (hvisit : r.visitLinks offset position hle path = .ok found) :
    ∀ s ∈ found, ∃ position, r.ReadsAt position s := by
  rw [visitLinks_eq] at hvisit
  obtain ⟨word, hword, hvisit⟩ := bind_eq_ok_iff.mp hvisit
  have hlt := lt_of_wordAt hword
  split at hvisit
  next =>
    obtain rfl := Except.ok.inj hvisit
    exact List.forall_mem_nil _
  next =>
    obtain ⟨target, -, hvisit⟩ := bind_eq_ok_iff.mp hvisit
    split at hvisit
    next => cases hvisit
    next hforward =>
      obtain ⟨first, hfirst, hvisit⟩ := bind_eq_ok_iff.mp hvisit
      obtain ⟨rest, hrest, hvisit⟩ := bind_eq_ok_iff.mp hvisit
      obtain rfl := Except.ok.inj hvisit
      exact List.forall_mem_append.mpr ⟨exists_readsAt_of_visit hfirst,
        exists_readsAt_of_visitLinks (Nat.le_add_right_of_le hle) hrest⟩
termination_by (r.table.size - offset, r.table.size - position)

end

theorem exists_readsAt_of_decode {found : List StoredMatch} (hdecode : r.decode = .ok found) :
    ∀ s ∈ found, ∃ position, r.ReadsAt position s := by
  unfold Reader.decode at hdecode
  split at hdecode
  next =>
    obtain rfl := Except.ok.inj hdecode
    exact List.forall_mem_nil _
  next => exact exists_readsAt_of_visit hdecode

/-! ## Readers with more to read -/

/-- Whether `r'` has all words and bytes of `r` and maybe more behind them. -/
structure Extends (r r' : Reader) : Prop where
  /-- Both have one alphabet. -/
  alphabet : r'.alphabet = r.alphabet
  /-- The words come first. -/
  table : r.table.toList <+: r'.table.toList
  /-- The bytes come first. -/
  pool : r.pool.toList <+: r'.pool.toList

/-- How the outcome of `r'` may differ from that of `r`: not at all, unless `r` comes to the end of its
words or bytes where `r'` has more. -/
inductive Continues {α : Type} (r r' : Reader) : Except ReadError α → Except ReadError α → Prop where
  | same (x : Except ReadError α) : Continues r r' x x
  | tableEnd {position : Nat} (x : Except ReadError α) :
      r.table.size ≤ position → position < r'.table.size →
      Continues r r' (.error (.unexpectedEnd position)) x
  | poolEnd {offset : Nat} (x : Except ReadError α) :
      r.pool.size < r'.pool.size → Continues r r' (.error (.outputOutOfRange offset)) x

variable {α β : Type} {x y : Except ReadError α}

/-- If the first steps agree up to such an end, and all second steps do, so does the whole. -/
theorem Continues.bind {f g : α → Except ReadError β} (h : Continues r r' x y)
    (hnext : ∀ a, x = .ok a → Continues r r' (f a) (g a)) : Continues r r' (x >>= f) (y >>= g) := by
  cases h with
  | same =>
    cases x with
    | error e => exact .same _
    | ok a => exact hnext a rfl
  | tableEnd _ hle hlt => exact .tableEnd _ hle hlt
  | poolEnd _ hlt => exact .poolEnd _ hlt

namespace Extends

variable (h : r.Extends r')
include h

theorem size_table_le : r.table.size ≤ r'.table.size := by
  simpa using h.table.length_le

theorem size_pool_le : r.pool.size ≤ r'.pool.size := by
  simpa using h.pool.length_le

theorem wordAt (position : Nat) : Continues r r' (r.wordAt position) (r'.wordAt position) := by
  have hsize := h.size_table_le
  unfold Reader.wordAt
  split
  next hlt =>
    have hword : r.table[position] = r'.table[position] := by
      rw [← Array.getElem_toList, ← Array.getElem_toList]
      exact h.table.getElem _
    rw [dif_pos (Nat.lt_of_lt_of_le hlt hsize), hword]
    exact .same _
  next hge =>
    split
    -- there are more words in the longer table
    next hlt => exact .tableEnd _ (Nat.not_lt.mp hge) hlt
    next => exact .same _

theorem extract_pool {first last : Nat} (hle : first ≤ last) (hlast : last ≤ r.pool.size) :
    r'.pool.extract first last = r.pool.extract first last := by
  obtain ⟨rest, hrest⟩ := h.pool
  have hlength : r.pool.toList.length = r.pool.size := Array.length_toList
  refine Array.toList_inj.mp ?_
  rw [Array.toList_extract, Array.toList_extract, ← hrest, List.extract_eq_take_drop,
    List.extract_eq_take_drop, List.drop_append_of_le_length (by omega),
    List.take_append_of_le_length (by rw [List.length_drop]; omega)]

theorem storedMatch (offset : Nat) (word outputOffset : UInt16) (path : List Code) :
    Continues r r' (r.storedMatch offset word outputOffset path)
      (r'.storedMatch offset word outputOffset path) := by
  have hsize := h.size_pool_le
  have hcontext : r'.context path = r.context path := by rw [context, context, h.alphabet]
  unfold Reader.storedMatch
  simp only
  generalize MatchWord.ofWord word = fields
  split
  next hin =>
    rw [if_pos (Nat.le_trans hin hsize), hcontext, h.extract_pool (Nat.le_add_right _ _) hin]
    exact .same _
  next hout =>
    split
    -- the bytes are there in the longer pool only
    next hin => exact .poolEnd _ (by omega)
    next => exact .same _

theorem chain (position : Nat) (path : List Code) :
    Continues r r' (r.chain position path) (r'.chain position path) := by
  rw [chain_eq r, chain_eq r']
  refine (h.wordAt position).bind fun word hword => ?_
  have hlt := lt_of_wordAt hword
  split
  · exact .same _
  · exact (chain (position + 1) (word :: path)).bind fun _ _ => .same _
termination_by r.table.size - position

mutual

/-- Walking through an entry, the readers agree as far as the shorter one comes. -/
theorem visit (offset : Nat) (path : List Code) :
    Continues r r' (r.visit offset path) (r'.visit offset path) := by
  rw [visit_eq r, visit_eq r']
  refine (h.wordAt offset).bind fun word hword => ?_
  split
  · refine (h.wordAt (offset + 1)).bind fun outputOffset _ => ?_
    refine (h.storedMatch offset word outputOffset path).bind fun stored _ => ?_
    split
    · exact (visitShape offset (offset + 2) (Nat.le_add_right _ _) path).bind fun _ _ => .same _
    · exact .same _
  · exact visitShape offset offset (Nat.le_refl _) path
termination_by (r.table.size - offset, r.table.size + 2)

theorem visitShape (offset position : Nat) (hle : offset ≤ position) (path : List Code) :
    Continues r r' (r.visitShape offset position hle path) (r'.visitShape offset position hle path) := by
  rw [visitShape_eq r, visitShape_eq r']
  refine (h.wordAt position).bind fun word hword => ?_
  have hlt := lt_of_wordAt hword
  split
  · exact .same _
  · split
    · exact visitLinks offset position hle path
    · refine (h.chain position path).bind fun (path, ⟨next, hnext⟩) _ => ?_
      exact visit next path
termination_by (r.table.size - offset, r.table.size + 1)

theorem visitLinks (offset position : Nat) (hle : offset ≤ position) (path : List Code) :
    Continues r r' (r.visitLinks offset position hle path) (r'.visitLinks offset position hle path) := by
  rw [visitLinks_eq r, visitLinks_eq r']
  refine (h.wordAt position).bind fun word hword => ?_
  have hlt := lt_of_wordAt hword
  split
  · exact .same _
  · refine (h.wordAt (position + 1)).bind fun target _ => ?_
    split
    · exact .same _
    next hforward =>
      refine (visit target.toNat (Table.withoutBranchFlag word :: path)).bind fun first _ => ?_
      exact (visitLinks offset (position + 2) (Nat.le_add_right_of_le hle) path).bind
        fun _ _ => .same _
termination_by (r.table.size - offset, r.table.size - position)

end

/-- Reading more words and bytes changes nothing unless the shorter table or pool ends too early. An
empty table has no end that is too early. -/
theorem decode (hne : r.table.isEmpty = false) : Continues r r' r.decode r'.decode := by
  have hne' : r'.table.isEmpty = false := by
    have hsize := h.size_table_le
    simp only [Array.isEmpty_eq_false_iff, ← Array.size_pos_iff] at hne ⊢
    omega
  rw [Reader.decode, Reader.decode, hne, hne']
  exact h.visit 0 []

end Extends

end Shorthand.Reader
