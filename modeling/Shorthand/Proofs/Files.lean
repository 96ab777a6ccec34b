import Shorthand.Proofs.FileTree

/-!
# What a replacement leaves of the files

Actions that use files are read as changes of a state by `Files.Semantics`. The state may hold more than
the files, such as what the names of drafts are drawn from; `Files.Semantics.tree` is the part of it that
is a file tree.

`Files.Semantics.Lawful` is what is taken for granted: that nobody else is at work on the files, that
reading is reading and changes nothing, that a draft is made where there was nothing, that moving one
replaces its target at once, and that a draft that is discarded is gone. Writing a draft may fail halfway.
From that it follows that a replacement as a whole either puts the text at the place that its path leads
to, or leaves no trace.

A `FileTree` keeps these laws. The files of a machine keep them as far as its system does what it says.

## Main statements

- `Files.Semantics.ends_newDraft`: drafts under the first name that is not taken are made lawfully.
- `Files.Semantics.Lawful.ends_replace`: the two ways in which a replacement can end.
- `Files.Semantics.Lawful.ends_update`, `Files.Semantics.Lawful.ends_update_of_read`: the same for
  bringing a text up to date, where a text that is there already is left alone.
- `FileTree.lawful`: the operations on a file tree are lawful.
-/

namespace Shorthand.Files

/-! ## Actions as changes of a state -/

/-- A way to read actions as changes of a state that the files are a part of. -/
structure Semantics (m : Type → Type) [Monad m] (σ : Type) where
  /-- The result of an action and the state after it, unless the action breaks off. -/
  run {α : Type} (x : m α) (w : σ) : Option (α × σ)
  run_pure {α : Type} (a : α) (w : σ) : run (pure a) w = some (a, w)
  run_bind {α β : Type} (x : m α) (f : α → m β) (w : σ) :
    run (x >>= f) w = (run x w).bind fun (a, w') => run (f a) w'
  /-- The files in a state. -/
  tree (w : σ) : FileTree

namespace Semantics

variable {m : Type → Type} [Monad m] {σ : Type} {S : Semantics m σ} {α β : Type} {w : σ}

/-- An action comes to an end, with a result and a state of which `P` holds. -/
def Ends (S : Semantics m σ) (x : m α) (w : σ) (P : α → σ → Prop) : Prop :=
  ∃ a w', S.run x w = some (a, w') ∧ P a w'

theorem ends_pure {P : α → σ → Prop} {a : α} (h : P a w) : S.Ends (pure a) w P :=
  ⟨a, w, S.run_pure a w, h⟩

/-- Two actions come to an end if the first one does and the second one does after it. -/
theorem Ends.bind {x : m α} {f : α → m β} {P : α → σ → Prop} {Q : β → σ → Prop}
    (h : S.Ends x w P) (hf : ∀ a w', P a w' → S.Ends (f a) w' Q) : S.Ends (x >>= f) w Q := by
  obtain ⟨a, w', hrun, ha⟩ := h
  obtain ⟨b, w'', hrun', hb⟩ := hf a w' ha
  refine ⟨b, w'', ?_, hb⟩
  rw [S.run_bind, hrun]
  exact hrun'

theorem Ends.mono {x : m α} {P Q : α → σ → Prop} (h : S.Ends x w P)
    (hPQ : ∀ a w', P a w' → Q a w') : S.Ends x w Q := by
  obtain ⟨a, w', hrun, ha⟩ := h
  exact ⟨a, w', hrun, hPQ a w' ha⟩

/-- An action comes to one end only. -/
theorem Ends.and {x : m α} {P Q : α → σ → Prop} (h : S.Ends x w P) (h' : S.Ends x w Q) :
    S.Ends x w fun a w' => P a w' ∧ Q a w' := by
  obtain ⟨a, w', hrun, ha⟩ := h
  obtain ⟨b, w'', hrun', hb⟩ := h'
  obtain ⟨rfl, rfl⟩ := Prod.mk.inj (Option.some.inj (hrun.symm.trans hrun'))
  exact ⟨a, w', hrun, ha, hb⟩

end Semantics

/-! ## Laws -/

/-- How making a draft can end. -/
inductive Created (t t' : FileTree) : Except ReplaceError String → Prop where
  | made {draft : String} {place : List String} (h : t.Drafted t' draft place .empty) :
      Created t t' (.ok draft)
  | refused (e : ReplaceError) (h : t' = t) : Created t t' (.error e)

/-- How writing a text to the place of a draft can end. -/
inductive Written (t t' : FileTree) (place : List String) (content : String) :
    Except FileError Unit → Prop where
  | whole (h : t' = t.setAt place (some (.file content.toUTF8))) : Written t t' place content (.ok ())
  -- whatever has been written by then stays
  | broken (e : FileError) (bytes : ByteArray) (h : t' = t.setAt place (some (.file bytes))) :
      Written t t' place content (.error e)

/-- How moving the draft at a place to a path can end. -/
inductive Settled (t t' : FileTree) (place : List String) (bytes : ByteArray) (path : String) :
    Except FileError Unit → Prop where
  | moved {target : List String} (hlocate : t.locate path = .ok target)
      (htarget : t.get? target ≠ some .directory)
      (h : t' = (t.setAt place none).setAt target (some (.file bytes))) :
      Settled t t' place bytes path (.ok ())
  | refused (e : FileError) (h : t' = t) : Settled t t' place bytes path (.error e)

/-- What is taken for granted about the files. -/
structure Semantics.Lawful {m : Type → Type} [Monad m] [Files m] {σ : Type} (S : Semantics m σ) :
    Prop where
  /-- A text is read if it is there, and nothing is changed. -/
  read (path : String) (w : σ) : S.Ends (Files.read path) w fun r w' =>
    S.tree w' = S.tree w ∧ ∀ text, r = .ok text ↔ (S.tree w).read path = .ok text
  /-- A draft is a new file, or there is none. -/
  createDraft (directory : String) (w : σ) : S.Ends (Files.createDraft directory) w fun r w' =>
    Created (S.tree w) (S.tree w') r
  /-- Only the draft is written to. -/
  writeDraft {draft : String} {place : List String} (content : String) (w : σ) :
    (S.tree w).find draft = .ok (place, .empty) →
      S.Ends (Files.writeDraft draft content) w fun r w' =>
        Written (S.tree w) (S.tree w') place content r
  /-- A draft takes the place of its target at once, or it stays where it is. -/
  settleDraft {draft : String} {place : List String} {bytes : ByteArray} (path : String) (w : σ) :
    (S.tree w).find draft = .ok (place, bytes) →
      S.Ends (Files.settleDraft draft path) w fun r w' =>
        Settled (S.tree w) (S.tree w') place bytes path r
  /-- A draft that is discarded is gone. -/
  discardDraft {draft : String} {place : List String} {bytes : ByteArray} (w : σ) :
    (S.tree w).find draft = .ok (place, bytes) →
      S.Ends (Files.discardDraft draft) w fun _ w' =>
        S.tree w' = (S.tree w).setAt place none

/-! ## Replacing and bringing up to date -/

/-- How putting a text at a path can end. -/
inductive Replaced {β : Type} (t t' : FileTree) (path content : String) :
    Except ReplaceError β → Prop where
  | put {place : List String} (b : β) (hlocate : t.locate path = .ok place)
      (h : t.Put t' place content.toUTF8) : Replaced t t' path content (.ok b)
  | refused (e : ReplaceError) (h : t' = t) : Replaced t t' path content (.error e)

theorem Replaced.map {β γ : Type} {t t' : FileTree} {path content : String}
    {r : Except ReplaceError β} (h : Replaced t t' path content r) (f : β → γ) :
    Replaced t t' path content (r.map f) := by
  cases h with
  | put b hlocate h => exact .put (f b) hlocate h
  | refused e h => exact .refused e h

namespace Semantics

section

variable {m : Type → Type} [Monad m] {σ : Type} {S : Semantics m σ}

/-- The first name that is not taken is good for a draft if files are made where there is nothing. -/
theorem ends_newDraft {make : String → m (Except FileError Unit)}
    (hmake : ∀ path w, S.Ends (make path) w fun r w' =>
      (r = .ok () ∧ ∃ place, (S.tree w).Drafted (S.tree w') path place .empty) ∨
        ((∃ e, r = .error e) ∧ S.tree w' = S.tree w))
    (directory : String) (tries number : Nat) (w : σ) :
    S.Ends (newDraft make directory tries number) w fun r w' =>
      Created (S.tree w) (S.tree w') r := by
  induction tries generalizing number w with
  | zero => exact ends_pure (.refused _ rfl)
  | succ tries ih =>
    rw [newDraft]
    refine (hmake _ w).bind fun r w₁ hr => ?_
    obtain ⟨rfl, place, hdrafted⟩ | ⟨⟨e, rfl⟩, htree⟩ := hr
    · exact ends_pure (.made hdrafted)
    · split
      next heq => cases heq
      -- the name is taken, so the next one is tried
      next =>
        rw [← htree]
        exact ih (number + 1) w₁
      next => exact ends_pure (.refused _ htree)

end

namespace Lawful

variable {m : Type → Type} [Monad m] [Files m] {σ : Type} {S : Semantics m σ} {w : σ}
  {path content : String} (h : S.Lawful)
include h

/-- When the draft is gone, it is as if nothing had happened. -/
theorem ends_discardDraft {w₁ : σ} {draft : String} {place : List String} {bytes : ByteArray}
    (hdrafted : (S.tree w).Drafted (S.tree w₁) draft place bytes) (e : ReplaceError) :
    S.Ends (do Files.discardDraft draft; return .error e) w₁ fun (r : Except ReplaceError Unit) w' =>
      Replaced (S.tree w) (S.tree w') path content r := by
  refine (h.discardDraft w₁ hdrafted.find_eq).bind fun _ w₂ htree => ends_pure ?_
  exact .refused e (htree.trans hdrafted.setAt_none)

/-- A replacement puts the text in its place or leaves no trace. -/
theorem ends_replace (path content : String) (w : σ) :
    S.Ends (replace path content) w fun r w' => Replaced (S.tree w) (S.tree w') path content r := by
  unfold replace
  refine (h.createDraft (Path.directory path) w).bind fun r w₁ hcreated => ?_
  cases hcreated with
  | refused e htree => exact ends_pure (.refused e htree)
  | made hempty =>
    refine (h.writeDraft content w₁ hempty.find_eq).bind fun r w₂ hwritten => ?_
    cases hwritten with
    | broken e bytes htree =>
      have hdrafted := hempty.setAt_file bytes
      rw [← htree] at hdrafted
      exact h.ends_discardDraft hdrafted _
    | whole htree =>
      have hdrafted := hempty.setAt_file content.toUTF8
      rw [← htree] at hdrafted
      refine (h.settleDraft path w₂ hdrafted.find_eq).bind fun r w₃ hsettled => ?_
      cases hsettled with
      | refused e htree =>
        rw [← htree] at hdrafted
        exact h.ends_discardDraft hdrafted _
      | moved hlocate htarget htree =>
        obtain ⟨hlocate, hput⟩ := hdrafted.put hlocate htarget
        rw [← htree] at hput
        exact ends_pure (.put () hlocate hput)

/-- A text that is there already is left alone. -/
theorem ends_update_of_read (hread : (S.tree w).read path = .ok content) :
    S.Ends (update path content) w fun r w' => r = .ok false ∧ S.tree w' = S.tree w := by
  unfold update
  refine (h.read path w).bind fun r w' ⟨htree, hr⟩ => ?_
  rw [(hr content).mpr hread]
  simp only [if_true]
  exact ends_pure ⟨rfl, htree⟩

theorem ends_update (path content : String) (w : σ) :
    S.Ends (update path content) w fun r w' => Replaced (S.tree w) (S.tree w') path content r := by
  by_cases hread : (S.tree w).read path = .ok content
  · refine (h.ends_update_of_read hread).mono fun r w' ⟨hr, htree⟩ => ?_
    obtain ⟨place, hlocate, hfile⟩ := FileTree.read_eq_ok_iff.mp hread
    rw [hr, htree]
    exact .put false hlocate (FileTree.put_of_get? hfile)
  · unfold update
    refine (h.read path w).bind fun r w₁ ⟨htree, hr⟩ => ?_
    have hreplace : S.Ends (do return (← replace path content).map fun _ => true) w₁ fun r w' =>
        Replaced (S.tree w) (S.tree w') path content r := by
      rw [← htree]
      exact (h.ends_replace path content w₁).bind fun r w₂ hr => ends_pure (hr.map _)
    split
    next present _ =>
      have hne : present ≠ content := fun heq => hread ((hr content).mp (congrArg _ heq))
      rw [if_neg hne]
      exact hreplace
    next => exact hreplace

end Lawful

end Semantics

end Shorthand.Files

/-! ## File trees -/

namespace Shorthand.FileTree

open Files Files.Semantics

/-- Actions on a file tree. -/
def semantics : Semantics (StateM FileTree) FileTree where
  run x t := some (x.run t)
  run_pure _ _ := rfl
  run_bind _ _ _ := rfl
  tree t := t

theorem ends_get (t : FileTree) : semantics.Ends get t fun a t' => a = t ∧ t' = t :=
  ⟨t, t, rfl, rfl, rfl⟩

theorem ends_set (t t' : FileTree) : semantics.Ends (set t') t fun _ t'' => t'' = t' :=
  ⟨(), t', rfl, rfl⟩

/-- A change that fails is no change. -/
theorem ends_change {f : FileTree → Except FileError FileTree} {t : FileTree}
    {P : Except FileError Unit → FileTree → Prop} (hok : ∀ t', f t = .ok t' → P (.ok ()) t')
    (herror : ∀ e, f t = .error e → P (.error e) t) : semantics.Ends (change f) t P := by
  unfold change
  refine (ends_get t).bind fun a t₁ ⟨ha, ht⟩ => ?_
  rw [ha, ht]
  split
  next e hf => exact ends_pure (herror e hf)
  next t' hf => exact (ends_set t t').bind fun _ t₂ ht₂ => ends_pure (ht₂ ▸ hok t' hf)

theorem ends_createDraft (directory : String) (t : FileTree) :
    semantics.Ends (createDraft directory) t fun r t' => Created t t' r := by
  have hmake (path : String) (t : FileTree) :
      semantics.Ends (change (·.create path)) t fun r t' =>
        (r = .ok () ∧ ∃ place, t.Drafted t' path place .empty) ∨
          ((∃ e, r = .error e) ∧ t' = t) :=
    ends_change (fun _ hcreate => .inl ⟨rfl, create_eq_ok hcreate⟩)
      fun e _ => .inr ⟨⟨e, rfl⟩, rfl⟩
  refine (ends_get t).bind fun a t₁ ⟨ha, ht⟩ => ?_
  rw [ha, ht]
  exact ends_newDraft hmake (t.absolute directory) draftNames 0 t

theorem ends_writeDraft {t : FileTree} {draft : String} {place : List String} (content : String)
    (hfind : t.find draft = .ok (place, .empty)) :
    semantics.Ends (writeDraft draft content) t fun r t' => Written t t' place content r := by
  obtain ⟨hlocate, hfile⟩ := find_eq_ok_iff.mp hfind
  refine ends_change (fun t' hwrite => ?_) fun e _ => .broken e .empty ?_
  · obtain ⟨place', hlocate', rfl⟩ := write_eq_ok hwrite
    obtain rfl := Except.ok.inj (hlocate.symm.trans hlocate')
    exact .whole rfl
  · rw [← hfile, setAt_get?]

theorem ends_settleDraft {t : FileTree} {draft : String} {place : List String} {bytes : ByteArray}
    (path : String) (hfind : t.find draft = .ok (place, bytes)) :
    semantics.Ends (settleDraft draft path) t fun r t' => Settled t t' place bytes path r := by
  refine ends_change (fun t' hmove => ?_) fun e _ => .refused e rfl
  obtain ⟨target, hlocate, htarget, htree⟩ := move_eq_ok hfind hmove
  exact .moved hlocate htarget htree

theorem ends_discardDraft {t : FileTree} {draft : String} {place : List String} {bytes : ByteArray}
    (hfind : t.find draft = .ok (place, bytes)) :
    semantics.Ends (discardDraft draft) t fun _ t' => t' = t.setAt place none := by
  have hremove := remove_of_find hfind
  have hchange : semantics.Ends (change (·.remove draft)) t fun _ t' => t' = t.setAt place none :=
    ends_change (fun t' ht' => Except.ok.inj (ht'.symm.trans hremove)) fun e he => by
      cases he.symm.trans hremove
  exact hchange.bind fun _ _ htree => ends_pure htree

/-- The operations on a file tree do what is taken for granted. -/
theorem lawful : semantics.Lawful where
  read _ t := ⟨_, t, rfl, rfl, fun _ => Iff.rfl⟩
  createDraft := ends_createDraft
  writeDraft content _ := ends_writeDraft content
  settleDraft path _ := ends_settleDraft path
  discardDraft _ := ends_discardDraft

end Shorthand.FileTree
