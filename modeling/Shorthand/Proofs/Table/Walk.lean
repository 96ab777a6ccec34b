import Shorthand.Proofs.Table.Reading
import Mathlib.Logic.Function.Iterate

/-!
# Walks one word at a time

`Reader.decode` goes from entry to entry by recursion. Here the same walk is made in steps of one word
each, without a promise that it ends: the state of a walk (`Reader.Walk`) lists the visits that have begun
and not ended, and a step (`Reader.step`) moves the innermost of them on. So it can be said what happens on
the way, also in tables whose links lead into the middle of an entry or of their own list.

A visit comes to its outcome whatever visits contain it, so the walk ends, and it does so with the
outcome of `Reader.decode`.

## Main statements

- `Reader.movesTo_of_move`: the ways in which a visit moves on.
- `Reader.leads_visit`: the steps of one visit come to its outcome.
- `Reader.exists_after_eq_ended`, `Reader.eq_decode_of_after`: the walk ends as `Reader.decode` does.
- `Reader.forall_going`: what moves keep holds of the visits at every step.
-/

namespace Shorthand.Reader

/-! ## Visits -/

/-- What a visit takes the next word for. -/
inductive Stage where
  -- The first word of the entry.
  | first
  -- The offset of the output, behind a match word.
  | output (matchWord : UInt16)
  -- The first word of the shape, behind a match.
  | shape
  -- A code in a list of branches, or the zero that ends the list.
  | code
  -- The link beside a code.
  | link (code : Code)
  -- A code of a run, or the zero that ends the run.
  | run
  -- No word any more: a run has led to the entry behind it.
  | passed

/-- A visit that has begun and not ended. -/
structure Visit where
  /-- Where the entry starts. -/
  offset : Nat
  /-- The word to look at next. -/
  position : Nat
  stage : Stage
  /-- The codes that lead to the position, the latest first. -/
  path : List Code
  offset_le : offset ≤ position

namespace Visit

/-- A visit at its beginning. -/
def enter (offset : Nat) (path : List Code) : Visit :=
  ⟨offset, offset, .first, path, Nat.le_refl _⟩

/-- A visit at the word after. -/
def advance (v : Visit) (stage : Stage) (path : List Code) : Visit :=
  ⟨v.offset, v.position + 1, stage, path, Nat.le_succ_of_le v.offset_le⟩

/-- A visit in front of the shape that starts with a word. -/
def atShape (v : Visit) (word : UInt16) : Except ReadError (List Visit × List StoredMatch) :=
  if word = 0 then .error (.emptyEntry v.offset)
  else .ok ([{ v with stage := if Table.hasBranchFlag word then .code else .run }], [])

/-- What comes of a visit in one step: the visits that take its place, the innermost first, and the
matches that are found. A visit that is over leaves none, and one that leads to another entry leaves
that entry's before itself. -/
def move (r : Reader) (v : Visit) : Except ReadError (List Visit × List StoredMatch) :=
  match v.stage with
  | .first =>
    r.wordAt v.position >>= fun word =>
      if Table.isMatch word then .ok ([v.advance (.output word) v.path], []) else v.atShape word
  | .output matchWord =>
    r.wordAt v.position >>= fun outputOffset =>
      r.storedMatch v.offset matchWord outputOffset v.path >>= fun stored =>
        .ok (if Table.hasBranchFlag matchWord then [v.advance .shape v.path] else [], [stored])
  | .shape => r.wordAt v.position >>= v.atShape
  | .code =>
    r.wordAt v.position >>= fun word =>
      if Table.withoutBranchFlag word = 0 then .ok ([], [])
      else .ok ([v.advance (.link (Table.withoutBranchFlag word)) v.path], [])
  | .link code =>
    r.wordAt v.position >>= fun target =>
      if target.toNat ≤ v.offset then .error (.backwardLink v.position target.toNat)
      else .ok ([enter target.toNat (code :: v.path), v.advance .code v.path], [])
  | .run =>
    r.wordAt v.position >>= fun word =>
      if word = 0 then .ok ([enter (v.position + 1) v.path, v.advance .passed v.path], [])
      else .ok ([v.advance .run (word :: v.path)], [])
  | .passed => .ok ([], [])

end Visit

/-! ## Walks -/

/-- The state of a walk. -/
inductive Walk where
  -- The visits under way, the innermost first, and the matches found up to here.
  | going (visits : List Visit) (found : List StoredMatch)
  | ended (outcome : Except ReadError (List StoredMatch))

/-- One step of a walk. -/
def step (r : Reader) : Walk → Walk
  | .going [] found => .ended (.ok found)
  | .going (v :: outer) found =>
    match v.move r with
    | .error e => .ended (.error e)
    | .ok (inner, new) => .going (inner ++ outer) (found ++ new)
  | .ended outcome => .ended outcome

/-- A walk at its beginning. In an empty table there is nothing to visit. -/
def start (r : Reader) : Walk :=
  .going (if r.table.isEmpty then [] else [.enter 0 []]) []

/-- A walk after some steps. -/
def after (r : Reader) (n : Nat) : Walk :=
  r.step^[n] r.start

variable {r : Reader} {v : Visit} {visits outer inner : List Visit} {found new : List StoredMatch}
  {w w' w'' : Walk} {path : List Code} {offset position n : Nat}

/-! ## Moves -/

/-- The ways in which a visit moves on. -/
inductive MovesTo (r : Reader) (v : Visit) : List Visit → List StoredMatch → Prop where
  -- Its entry starts with a match.
  | matchWord {word : UInt16} : v.stage = .first → r.wordAt v.position = .ok word →
      Table.isMatch word → MovesTo r v [v.advance (.output word) v.path] []
  -- A list or a run starts here.
  | shape {word : UInt16} : v.stage = .first ∨ v.stage = .shape →
      r.wordAt v.position = .ok word → word ≠ 0 →
        MovesTo r v [{ v with stage := if Table.hasBranchFlag word then .code else .run }] []
  -- It is over with its match, or something is stored below.
  | output {matchWord outputOffset : UInt16} {stored : StoredMatch} :
      v.stage = .output matchWord → r.wordAt v.position = .ok outputOffset →
        r.storedMatch v.offset matchWord outputOffset v.path = .ok stored →
          MovesTo r v (if Table.hasBranchFlag matchWord then [v.advance .shape v.path] else []) [stored]
  | listCode {word : UInt16} : v.stage = .code → r.wordAt v.position = .ok word →
      Table.withoutBranchFlag word ≠ 0 →
        MovesTo r v [v.advance (.link (Table.withoutBranchFlag word)) v.path] []
  | listEnd {word : UInt16} : v.stage = .code → r.wordAt v.position = .ok word →
      Table.withoutBranchFlag word = 0 → MovesTo r v [] []
  | link {code : Code} {target : UInt16} : v.stage = .link code →
      r.wordAt v.position = .ok target → v.offset < target.toNat →
        MovesTo r v [.enter target.toNat (code :: v.path), v.advance .code v.path] []
  | runCode {word : UInt16} : v.stage = .run → r.wordAt v.position = .ok word →
      word ≠ 0 → MovesTo r v [v.advance .run (word :: v.path)] []
  -- The entry behind the run is next.
  | runEnd : v.stage = .run → r.wordAt v.position = .ok 0 →
      MovesTo r v [.enter (v.position + 1) v.path, v.advance .passed v.path] []
  | passed : v.stage = .passed → MovesTo r v [] []

theorem movesTo_of_atShape {word : UInt16} (hstage : v.stage = .first ∨ v.stage = .shape)
    (hword : r.wordAt v.position = .ok word) (h : v.atShape word = .ok (inner, new)) :
    MovesTo r v inner new := by
  unfold Visit.atShape at h
  split at h
  next => cases h
  next hne =>
    cases h
    exact .shape hstage hword hne

theorem movesTo_of_move (h : v.move r = .ok (inner, new)) : MovesTo r v inner new := by
  unfold Visit.move at h
  -- every stage but the last looks at a word first
  split at h
  next hstage =>
    obtain ⟨word, hword, h⟩ := bind_eq_ok_iff.mp h
    split at h
    next hmatch =>
      cases h
      exact .matchWord hstage hword hmatch
    next => exact movesTo_of_atShape (.inl hstage) hword h
  next matchWord hstage =>
    obtain ⟨outputOffset, houtput, h⟩ := bind_eq_ok_iff.mp h
    obtain ⟨stored, hstored, h⟩ := bind_eq_ok_iff.mp h
    cases h
    exact .output hstage houtput hstored
  next hstage =>
    obtain ⟨word, hword, h⟩ := bind_eq_ok_iff.mp h
    exact movesTo_of_atShape (.inr hstage) hword h
  next hstage =>
    obtain ⟨word, hword, h⟩ := bind_eq_ok_iff.mp h
    split at h
    next hzero =>
      cases h
      exact .listEnd hstage hword hzero
    next hne =>
      cases h
      exact .listCode hstage hword hne
  next code hstage =>
    obtain ⟨target, htarget, h⟩ := bind_eq_ok_iff.mp h
    split at h
    next => cases h
    next hforward =>
      cases h
      exact .link hstage htarget (Nat.lt_of_not_le hforward)
  next hstage =>
    obtain ⟨word, hword, h⟩ := bind_eq_ok_iff.mp h
    split at h
    next hzero =>
      cases h
      exact .runEnd hstage (hzero ▸ hword)
    next hne =>
      cases h
      exact .runCode hstage hword hne
  next hstage =>
    cases h
    exact .passed hstage

/-! ## Steps -/

theorem step_of_ok (h : v.move r = .ok (inner, new)) :
    r.step (.going (v :: outer) found) = .going (inner ++ outer) (found ++ new) := by
  simp only [step, h]

theorem step_of_error {e : ReadError} (h : v.move r = .error e) :
    r.step (.going (v :: outer) found) = .ended (.error e) := by
  simp only [step, h]

/-- What a step can do. -/
inductive StepsTo (r : Reader) : Walk → Walk → Prop where
  -- With no visit under way, everything is found.
  | finish (found : List StoredMatch) : StepsTo r (.going [] found) (.ended (.ok found))
  -- Or the innermost visit fails,
  | fail {v : Visit} {e : ReadError} (outer : List Visit) (found : List StoredMatch) :
      v.move r = .error e → StepsTo r (.going (v :: outer) found) (.ended (.error e))
  -- or moves on.
  | move {v : Visit} {inner : List Visit} {new : List StoredMatch} (outer : List Visit)
      (found : List StoredMatch) : v.move r = .ok (inner, new) →
        StepsTo r (.going (v :: outer) found) (.going (inner ++ outer) (found ++ new))
  -- A walk that has ended stays so.
  | rest (outcome : Except ReadError (List StoredMatch)) : StepsTo r (.ended outcome) (.ended outcome)

theorem stepsTo_step (r : Reader) (w : Walk) : StepsTo r w (r.step w) := by
  cases w with
  | ended outcome => exact .rest outcome
  | going visits found =>
    cases visits with
    | nil => exact .finish found
    | cons v outer =>
      cases hmove : v.move r with
      | error e =>
        rw [step_of_error hmove]
        exact .fail outer found hmove
      | ok result =>
        rw [step_of_ok hmove]
        exact .move outer found hmove

/-- A walk that goes on does so by a move of the innermost visit. -/
theorem exists_move_of_step (h : r.step w = .going visits found) :
    ∃ v outer before inner new, w = .going (v :: outer) before ∧ v.move r = .ok (inner, new) ∧
      visits = inner ++ outer := by
  have hstep := stepsTo_step r w
  rw [h] at hstep
  cases hstep with
  | move outer before hmove => exact ⟨_, outer, before, _, _, rfl, hmove, rfl⟩

theorem after_succ (r : Reader) (n : Nat) : r.after (n + 1) = r.step (r.after n) :=
  Function.iterate_succ_apply' ..

theorem after_add (r : Reader) (n m : Nat) : r.after (n + m) = r.step^[m] (r.after n) := by
  rw [after, Nat.add_comm, Function.iterate_add_apply, ← after]

theorem iterate_step_ended (outcome : Except ReadError (List StoredMatch)) :
    r.step^[n] (.ended outcome) = .ended outcome :=
  Function.iterate_fixed rfl n

/-! ## The outcome of a walk -/

/-- Whether a walk comes from one state to another in one step or more. -/
def Leads (r : Reader) (w w' : Walk) : Prop :=
  ∃ n, r.step^[n + 1] w = w'

theorem Leads.of_step (h : r.step w = w') : r.Leads w w' :=
  ⟨0, h⟩

theorem Leads.head (h : r.step w = w') (h' : r.Leads w' w'') : r.Leads w w'' := by
  obtain ⟨n, hn⟩ := h'
  exact ⟨n + 1, by rw [Function.iterate_succ_apply, h, hn]⟩

theorem Leads.trans (h : r.Leads w w') (h' : r.Leads w' w'') : r.Leads w w'' := by
  obtain ⟨n, hn⟩ := h
  obtain ⟨n', hn'⟩ := h'
  refine ⟨n' + 1 + n, ?_⟩
  rw [Nat.add_assoc (n' + 1), Function.iterate_add_apply, hn, hn']

/-- The walk when the innermost visit has come to its outcome. -/
def Walk.leave (outer : List Visit) (found : List StoredMatch) :
    Except ReadError (List StoredMatch) → Walk
  | .error e => .ended (.error e)
  | .ok new => .going outer (found ++ new)

/-- A step in which nothing is found, and what comes after it. -/
theorem Leads.move (h : v.move r = .ok (inner, [])) (h' : r.Leads (.going (inner ++ outer) found) w) :
    r.Leads (.going (v :: outer) found) w := by
  refine .head (step_of_ok h) ?_
  rwa [List.append_nil]

theorem Walk.leave_append (outer : List Visit) (found first : List StoredMatch)
    (x : Except ReadError (List StoredMatch)) :
    leave outer found (x >>= fun rest => .ok (first ++ rest)) = leave outer (found ++ first) x := by
  cases x with
  | error e => rfl
  | ok rest =>
    show Walk.going outer (found ++ (first ++ rest)) = .going outer (found ++ first ++ rest)
    rw [List.append_assoc]

theorem Leads.leave_of_ok (h : v.move r = .ok ([], new)) :
    r.Leads (.going (v :: outer) found) (.leave outer found (.ok new)) :=
  .of_step (step_of_ok h)

theorem Leads.leave_of_error {e : ReadError} (h : v.move r = .error e) :
    r.Leads (.going (v :: outer) found) (.leave outer found (.error e)) :=
  .of_step (step_of_error h)

/-- A visit that only waits for one within it has the outcome of that one. -/
theorem Leads.pass {outcome : Except ReadError (List StoredMatch)} (hpassed : v.stage = .passed)
    (h : r.Leads w (.leave (v :: outer) found outcome)) : r.Leads w (.leave outer found outcome) := by
  cases outcome with
  | error e => exact h
  | ok new =>
    refine h.trans (.of_step ?_)
    have hmove : v.move r = .ok ([], []) := by rw [Visit.move, hpassed]
    show r.step (.going (v :: outer) (found ++ new)) = .going outer (found ++ new)
    rw [step_of_ok hmove, List.append_nil, List.nil_append]

/-! ### The moves that lead on -/

/-- Without a match, an entry is read from its shape on. -/
theorem move_enter {word : UInt16} (path : List Code) (hword : r.wordAt offset = .ok word)
    (hmatch : Table.isMatch word = false) :
    (Visit.enter offset path).move r = (Visit.enter offset path).atShape word := by
  simp [Visit.move, Visit.enter, hword, hmatch]

theorem atShape_of_ne_zero {word : UInt16} (hne : word ≠ 0) :
    v.atShape word =
      .ok ([{ v with stage := if Table.hasBranchFlag word then .code else .run }], []) :=
  if_neg hne

theorem atShape_eq_error {word : UInt16} {e : ReadError} (h : v.atShape word = .error e) :
    word = 0 ∧ e = .emptyEntry v.offset := by
  unfold Visit.atShape at h
  split at h
  next hzero =>
    cases h
    exact ⟨hzero, rfl⟩
  next => cases h

theorem move_run {word : UInt16} {hle : offset ≤ position} (hword : r.wordAt position = .ok word)
    (hne : word ≠ 0) :
    Visit.move r ⟨offset, position, .run, path, hle⟩ =
      .ok ([⟨offset, position + 1, .run, word :: path, Nat.le_succ_of_le hle⟩], []) := by
  simp [Visit.move, Visit.advance, hword, hne]

theorem move_code {word : UInt16} {hle : offset ≤ position} (hword : r.wordAt position = .ok word)
    (hne : Table.withoutBranchFlag word ≠ 0) :
    Visit.move r ⟨offset, position, .code, path, hle⟩ =
      .ok ([⟨offset, position + 1, .link (Table.withoutBranchFlag word), path,
        Nat.le_succ_of_le hle⟩], []) := by
  simp [Visit.move, Visit.advance, hword, hne]

/-- Over a code and its link, the walk comes to the entry of a branch. -/
theorem leads_branch {word target : UInt16} {hle : offset ≤ position}
    (hword : r.wordAt position = .ok word) (hne : Table.withoutBranchFlag word ≠ 0)
    (htarget : r.wordAt (position + 1) = .ok target) (hforward : ¬ target.toNat ≤ offset) :
    r.Leads (.going (⟨offset, position, .code, path, hle⟩ :: outer) found)
      (.going (.enter target.toNat (Table.withoutBranchFlag word :: path) ::
        ⟨offset, position + 2, .code, path, Nat.le_add_right_of_le hle⟩ :: outer) found) := by
  have hmove : Visit.move r ⟨offset, position + 1, .link (Table.withoutBranchFlag word), path,
      Nat.le_succ_of_le hle⟩ =
        .ok ([.enter target.toNat (Table.withoutBranchFlag word :: path),
          ⟨offset, position + 2, .code, path, Nat.le_add_right_of_le hle⟩], []) := by
    simp [Visit.move, Visit.advance, htarget, hforward]
  refine .move (move_code hword hne) (.of_step ?_)
  rw [List.singleton_append, step_of_ok hmove, List.append_nil]
  rfl

/-- Through a run that ends, the walk comes to the entry behind it. -/
theorem leads_of_chain_eq_ok {offset position : Nat} {hle : offset ≤ position} {path path' : List Code}
    {next : { next : Nat // position < next }} (h : r.chain position path = .ok (path', next)) :
    ∃ v : Visit, v.stage = .passed ∧
      r.Leads (.going (⟨offset, position, .run, path, hle⟩ :: outer) found)
        (.going (.enter next path' :: v :: outer) found) := by
  rw [chain_eq] at h
  obtain ⟨word, hword, h⟩ := bind_eq_ok_iff.mp h
  have hlt := lt_of_wordAt hword
  split at h
  next hzero =>
    cases h
    have hmove : Visit.move r ⟨offset, position, .run, path, hle⟩ =
        .ok ([.enter (position + 1) path,
          ⟨offset, position + 1, .passed, path, Nat.le_succ_of_le hle⟩], []) := by
      simp [Visit.move, Visit.advance, hword, hzero]
    refine ⟨⟨offset, position + 1, .passed, path, Nat.le_succ_of_le hle⟩, rfl, .of_step ?_⟩
    rw [step_of_ok hmove, List.append_nil]
    rfl
  next hne =>
    obtain ⟨⟨_, next', hnext⟩, hchain, h⟩ := bind_eq_ok_iff.mp h
    cases h
    obtain ⟨v, hpassed, hleads⟩ := leads_of_chain_eq_ok hchain
    exact ⟨v, hpassed, .move (move_run hword hne) hleads⟩
termination_by r.table.size - position

/-- A run that does not end is where the walk does. -/
theorem leads_of_chain_eq_error {offset position : Nat} {hle : offset ≤ position} {path : List Code}
    {e : ReadError} (h : r.chain position path = .error e) :
    r.Leads (.going (⟨offset, position, .run, path, hle⟩ :: outer) found) (.ended (.error e)) := by
  rw [chain_eq] at h
  rcases bind_eq_error_iff.mp h with hword | ⟨word, hword, h⟩
  · exact .leave_of_error (by simp [Visit.move, hword])
  · have hlt := lt_of_wordAt hword
    split at h
    next => cases h
    next hne =>
      rcases bind_eq_error_iff.mp h with hchain | ⟨_, -, h⟩
      · exact .move (move_run hword hne) (leads_of_chain_eq_error hchain)
      · cases h
termination_by r.table.size - position

/-! ### Whole visits -/

mutual

/-- The steps of a visit come to its outcome. -/
theorem leads_visit (offset : Nat) (path : List Code) (outer : List Visit) (found : List StoredMatch) :
    r.Leads (.going (.enter offset path :: outer) found)
      (.leave outer found (r.visit offset path)) := by
  rw [visit_eq]
  cases hword : r.wordAt offset with
  | error e => exact .leave_of_error (by simp [Visit.move, Visit.enter, hword])
  | ok word =>
    have hlt := lt_of_wordAt hword
    rw [ok_bind]
    split
    next hmatch =>
      have hmove : (Visit.enter offset path).move r =
          .ok ([⟨offset, offset + 1, .output word, path, Nat.le_succ offset⟩], []) := by
        simp [Visit.move, Visit.enter, Visit.advance, hword, hmatch]
      refine .move hmove ?_
      cases houtput : r.wordAt (offset + 1) with
      | error e => exact .leave_of_error (by simp [Visit.move, houtput])
      | ok outputOffset =>
        rw [ok_bind]
        cases hstored : r.storedMatch offset word outputOffset path with
        | error e => exact .leave_of_error (by simp [Visit.move, houtput, hstored])
        | ok stored =>
          rw [ok_bind]
          split
          next hflag =>
            have hmove : Visit.move r ⟨offset, offset + 1, .output word, path, Nat.le_succ offset⟩ =
                .ok ([⟨offset, offset + 2, .shape, path, Nat.le_add_right _ _⟩], [stored]) := by
              simp [Visit.move, Visit.advance, houtput, hstored, hflag]
            refine .head (step_of_ok hmove) ?_
            -- what is found below comes after the match of the entry
            have hbelow := leads_visitShape (Nat.le_add_right offset 2) .shape path rfl outer
              (found ++ [stored])
            rw [← Walk.leave_append] at hbelow
            exact hbelow
          next hflag => exact .leave_of_ok (by simp [Visit.move, houtput, hstored, hflag])
    next hmatch =>
      have hmove := move_enter path hword (Bool.eq_false_iff.mpr hmatch)
      exact leads_visitShape (Nat.le_refl offset) .first path (by rw [hword]; exact hmove) outer found
termination_by (r.table.size - offset, r.table.size + 2)

theorem leads_visitShape {offset position : Nat} (hle : offset ≤ position) (stage : Stage)
    (path : List Code)
    (hmove : Visit.move r ⟨offset, position, stage, path, hle⟩ =
      r.wordAt position >>= Visit.atShape ⟨offset, position, stage, path, hle⟩)
    (outer : List Visit) (found : List StoredMatch) :
    r.Leads (.going (⟨offset, position, stage, path, hle⟩ :: outer) found)
      (.leave outer found (r.visitShape offset position hle path)) := by
  rw [visitShape_eq]
  cases hword : r.wordAt position with
  | error e => exact .leave_of_error (by rw [hmove, hword]; rfl)
  | ok word =>
    have hlt := lt_of_wordAt hword
    rw [ok_bind]
    rw [hword, ok_bind] at hmove
    split
    next hzero => exact .leave_of_error (by simp [hmove, Visit.atShape, hzero])
    next hne =>
      split
      next hflag =>
        rw [atShape_of_ne_zero hne, if_pos hflag] at hmove
        exact .move hmove (leads_visitLinks hle path outer found)
      next hflag =>
        rw [atShape_of_ne_zero hne, if_neg hflag] at hmove
        refine .move hmove ?_
        cases hchain : r.chain position path with
        | error e => exact leads_of_chain_eq_error hchain
        | ok result =>
          obtain ⟨path', next, hnext⟩ := result
          obtain ⟨v, hpassed, hleads⟩ := leads_of_chain_eq_ok hchain
          exact hleads.trans (.pass hpassed (leads_visit next path' (v :: outer) found))
termination_by (r.table.size - offset, r.table.size + 1)

theorem leads_visitLinks {offset position : Nat} (hle : offset ≤ position) (path : List Code)
    (outer : List Visit) (found : List StoredMatch) :
    r.Leads (.going (⟨offset, position, .code, path, hle⟩ :: outer) found)
      (.leave outer found (r.visitLinks offset position hle path)) := by
  rw [visitLinks_eq]
  cases hword : r.wordAt position with
  | error e => exact .leave_of_error (by simp [Visit.move, hword])
  | ok word =>
    have hlt := lt_of_wordAt hword
    rw [ok_bind]
    split
    next hzero => exact .leave_of_ok (by simp [Visit.move, hword, hzero])
    next hne =>
      cases htarget : r.wordAt (position + 1) with
      | error e => exact .move (move_code hword hne) (.leave_of_error (by simp [Visit.move, htarget]))
      | ok target =>
        rw [ok_bind]
        split
        next hback =>
          exact .move (move_code hword hne) (.leave_of_error (by simp [Visit.move, htarget, hback]))
        next hforward =>
          refine (leads_branch hword hne htarget hforward).trans ?_
          have hfirst := leads_visit target.toNat (Table.withoutBranchFlag word :: path)
            (⟨offset, position + 2, .code, path, Nat.le_add_right_of_le hle⟩ :: outer) found
          cases hvisit : r.visit target.toNat (Table.withoutBranchFlag word :: path) with
          | error e => rwa [hvisit] at hfirst
          | ok first =>
            rw [hvisit] at hfirst
            refine hfirst.trans ?_
            rw [ok_bind, Walk.leave_append]
            exact leads_visitLinks (Nat.le_add_right_of_le hle) path outer (found ++ first)
termination_by (r.table.size - offset, r.table.size - position)

end

/-- The walk ends, with the outcome of the recursion. -/
theorem exists_after_eq_ended (r : Reader) : ∃ n, r.after n = .ended r.decode := by
  unfold after start decode
  split
  next hempty => exact ⟨1, rfl⟩
  next hne =>
    obtain ⟨n, hn⟩ := leads_visit (r := r) 0 [] [] []
    cases hvisit : r.visit 0 [] with
    | error e => exact ⟨n + 1, by rw [hn, hvisit]; rfl⟩
    | ok found =>
      -- the walk ends in the step after its last visit
      refine ⟨n + 2, ?_⟩
      rw [Function.iterate_succ_apply', hn, hvisit]
      rfl

/-- There is no other way for it to end. -/
theorem eq_decode_of_after {outcome : Except ReadError (List StoredMatch)}
    (h : r.after n = .ended outcome) : outcome = r.decode := by
  obtain ⟨m, hm⟩ := exists_after_eq_ended r
  have hlater : r.after (n + m) = .ended outcome := by
    rw [after_add, h, iterate_step_ended]
  rw [Nat.add_comm, after_add, hm, iterate_step_ended] at hlater
  injection hlater with heq
  exact heq.symm

/-! ## Invariants of a walk -/

/-- What holds of the visits at the beginning, and after every step if it held before, holds of those
under way at any time. -/
theorem forall_going {P : List Visit → Prop} (hnil : P []) (hroot : P [.enter 0 []])
    (hmove : ∀ {v inner outer new}, v.move r = .ok (inner, new) → P (v :: outer) → P (inner ++ outer))
    (h : r.after n = .going visits found) : P visits := by
  induction n generalizing visits found with
  | zero =>
    obtain ⟨rfl, -⟩ := Walk.going.inj h
    split
    · exact hnil
    · exact hroot
  | succ n ih =>
    rw [after_succ] at h
    obtain ⟨v, outer, before, inner, new, hbefore, hv, rfl⟩ := exists_move_of_step h
    exact hmove hv (ih hbefore)

end Shorthand.Reader
