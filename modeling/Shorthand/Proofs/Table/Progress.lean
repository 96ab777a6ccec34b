import Shorthand.Proofs.Table.Walk

/-!
# Reading comes to an end

A reader may be given any table. A link is compared with the start of the entry it stands in only, so it
may lead into the middle of an entry or of its own list, and entries may be shared or overlap. Still the
walk ends on every table: visits that contain one another start ever further in it, a visit never goes
back, and a word that is missing ends the walk.

## Main statements

- `Reader.advances_of_move`: what a step does to the visits.
- `Reader.Advances.nested`: it keeps them nested.
- `Reader.decode_returns`: the walk ends, and what holds at each of its steps.
-/

namespace Shorthand.Reader

variable {r : Reader} {v : Visit} {visits outer inner : List Visit} {new : List StoredMatch}
  {offset : Nat}

/-! ## Steps -/

/-- How the visits under way change in a step of a walk that goes on. -/
inductive Advances (r : Reader) : List Visit → List Visit → Prop where
  -- The innermost visit is over.
  | leave (v : Visit) (outer : List Visit) : Advances r (v :: outer) outer
  -- Having looked at the first word of the shape, it starts to read a list or a run there.
  | loop {v v' : Visit} (outer : List Visit) : v.stage = .first ∨ v.stage = .shape →
      v'.stage = .code ∨ v'.stage = .run → v'.offset = v.offset → v'.position = v.position →
        v.position < r.table.size → Advances r (v :: outer) (v' :: outer)
  -- Having looked at a word, it goes on to the next one.
  | forward {v v' : Visit} (outer : List Visit) : v'.offset = v.offset →
      v'.position = v.position + 1 → v.position < r.table.size →
        Advances r (v :: outer) (v' :: outer)
  -- Besides, it leads to another entry, which starts further in the table than its own.
  | nest {v v' : Visit} {offset : Nat} (path : List Code) (outer : List Visit) :
      v'.offset = v.offset → v'.position = v.position + 1 → v.position < r.table.size →
        v.offset < offset → Advances r (v :: outer) (.enter offset path :: v' :: outer)

/-- What a move does to the visits under way. -/
theorem advances_of_move (h : v.move r = .ok (inner, new)) :
    Advances r (v :: outer) (inner ++ outer) := by
  cases movesTo_of_move h with
  | matchWord _ hword _ => exact .forward outer rfl rfl (lt_of_wordAt hword)
  | shape hstage hword _ =>
    refine .loop outer hstage ?_ rfl rfl (lt_of_wordAt hword)
    split
    · exact .inl rfl
    · exact .inr rfl
  | output _ houtput _ =>
    split
    · exact .forward outer rfl rfl (lt_of_wordAt houtput)
    · exact .leave v outer
  | listCode _ hword _ => exact .forward outer rfl rfl (lt_of_wordAt hword)
  | listEnd => exact .leave v outer
  | link _ htarget hforward => exact .nest _ outer rfl rfl (lt_of_wordAt htarget) hforward
  | runCode _ hword _ => exact .forward outer rfl rfl (lt_of_wordAt hword)
  | runEnd _ hword =>
    -- what a run leads to starts behind it
    exact .nest _ outer rfl rfl (lt_of_wordAt hword) (Nat.lt_succ_of_le v.offset_le)
  | passed => exact .leave v outer

/-- Whether every visit starts further in the table than all those that contain it. -/
def Nested (visits : List Visit) : Prop :=
  visits.Pairwise fun inner outer => outer.offset < inner.offset

/-- It does not matter how far a visit has come. -/
theorem Nested.congr {v v' : Visit} (hoffset : v'.offset = v.offset) (h : Nested (v :: outer)) :
    Nested (v' :: outer) := by
  obtain ⟨hv, houter⟩ := List.pairwise_cons.mp h
  rw [← hoffset] at hv
  exact .cons hv houter

theorem Nested.enter (h : Nested (v :: outer)) (hlt : v.offset < offset) (path : List Code) :
    Nested (.enter offset path :: v :: outer) := by
  refine .cons ?_ h
  intro w hw
  rcases List.mem_cons.mp hw with rfl | hw
  · exact hlt
  · exact Nat.lt_trans ((List.pairwise_cons.mp h).1 w hw) hlt

theorem Advances.nested (h : Advances r visits inner) (hnested : Nested visits) : Nested inner := by
  cases h with
  | leave v outer => exact hnested.of_cons
  | loop outer _ _ hoffset => exact hnested.congr hoffset
  | forward outer hoffset => exact hnested.congr hoffset
  | nest path outer hoffset _ _ hlt => exact (hnested.congr hoffset).enter (hoffset ▸ hlt) path

/-- A word beyond the end is not looked at. -/
theorem move_of_size_le (hstage : v.stage ≠ .passed) (hsize : r.table.size ≤ v.position) :
    v.move r = .error (.unexpectedEnd v.position) := by
  have hword : r.wordAt v.position = .error (.unexpectedEnd v.position) :=
    dif_neg (Nat.not_lt.mpr hsize)
  unfold Visit.move
  split
  case h_7 hpassed => exact absurd hpassed hstage
  all_goals rw [hword, error_bind]

/-! ## Runs -/

/-- Every table is read to an outcome. On the way there, visits that contain one another start ever
further in the table; the innermost one comes to its end, goes forwards, or leads to an entry that
starts beyond its own; and where it has a word to look at and the table has none, the walk ends with
that. -/
theorem decode_returns (r : Reader) :
    (∃ n, r.after n = .ended r.decode) ∧
      ∀ n visits found, r.after n = .going visits found →
        Nested visits ∧
        (∀ visits' found', r.after (n + 1) = .going visits' found' → Advances r visits visits') ∧
        ∀ v ∈ visits.head?, v.stage ≠ .passed → r.table.size ≤ v.position →
          r.after (n + 1) = .ended (.error (.unexpectedEnd v.position)) ∧
            r.decode = .error (.unexpectedEnd v.position) := by
  refine ⟨exists_after_eq_ended r, fun n visits found h => ⟨?_, ?_, ?_⟩⟩
  · exact forall_going .nil (List.pairwise_singleton ..)
      (fun hmove hnested => (advances_of_move hmove).nested hnested) h
  · intro visits' found' hnext
    rw [after_succ] at hnext
    obtain ⟨v, outer, before, inner, new, hbefore, hmove, rfl⟩ := exists_move_of_step hnext
    obtain ⟨rfl, -⟩ := Walk.going.inj (h.symm.trans hbefore)
    exact advances_of_move hmove
  · intro v hv hstage hsize
    obtain ⟨outer, rfl⟩ := List.head?_eq_some_iff.mp hv
    have hend : r.after (n + 1) = .ended (.error (.unexpectedEnd v.position)) := by
      rw [after_succ, h, step_of_error (move_of_size_le hstage hsize)]
    exact ⟨hend, (eq_decode_of_after hend).symm⟩

/-- The link of this table leads to itself, where a run starts that ends with the table. -/
theorem decode_returns_inner_link :
    ∃ r : Reader, ∃ visits found, r.table = #[0x4005, 1, 0] ∧ r.after 6 = .going visits found ∧
      visits.map (·.offset) = [3, 1, 0] ∧ Nested visits ∧ r.decode = .error (.unexpectedEnd 3) := by
  obtain ⟨r, v, outer, found, htable, hafter, hoffsets, hposition, hstage⟩ :
      ∃ (r : Reader) (v : Visit) (outer : List Visit) (found : List StoredMatch),
        r.table = #[0x4005, 1, 0] ∧ r.after 6 = .going (v :: outer) found ∧
        (v :: outer).map (·.offset) = [3, 1, 0] ∧ v.position = 3 ∧ v.stage = .first :=
    ⟨⟨⟨['★'], ['☆'], ' ', by decide, by decide⟩, _, #[]⟩, _, _, _, rfl, rfl, rfl, rfl, rfl⟩
  obtain ⟨hnested, -, hend⟩ := (decode_returns r).2 6 (v :: outer) found hafter
  obtain ⟨-, hdecode⟩ := hend v rfl (by simp [hstage])
    (by rw [htable, hposition]; decide)
  rw [hposition] at hdecode
  exact ⟨r, v :: outer, found, htable, hafter, hoffsets, hnested, hdecode⟩

end Shorthand.Reader
