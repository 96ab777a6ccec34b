import Shorthand.FileTree
import Shorthand.Proofs.Outcome

/-!
# Changes of a file tree

`FileTree.Put` relates a tree to one that differs from it in the file at one place, and `FileTree.Drafted` to
one that has a draft besides. No directory comes or goes in either case, so every path that could be
followed before can be followed afterwards and leads to the same place (`SameDirectories.locate_eq_ok_iff`),
and a text at any other place reads as it did.

## Main statements

- `FileTree.Put.read_of_ne`: a text reads as before unless a file was put in its place.
- `FileTree.Drafted.setAt_none`: a draft that is removed leaves no trace.
- `FileTree.Drafted.put`: a draft that is moved puts its text at the end of its path, and leaves no other
  trace.
- `FileTree.create_eq_ok`, `FileTree.write_eq_ok`, `FileTree.move_eq_ok`: what the operations have done if
  they succeed.
-/

namespace Shorthand.FileTree

variable {t t' : FileTree} {place other directory : List String} {names : List String} {path : String}
  {bytes : ByteArray} {content : String} {item : Option Item}

/-! ## Directories that stay -/

/-- Two trees have the same directories, and relative paths start at the same one. -/
structure SameDirectories (t t' : FileTree) : Prop where
  working : t'.working = t.working
  directory_iff : ∀ place, t'.get? place = some .directory ↔ t.get? place = some .directory

theorem sameDirectories_setAt (hplace : t.get? place ≠ some .directory)
    (hitem : item ≠ some .directory) : t.SameDirectories (t.setAt place item) := by
  refine ⟨rfl, fun other => ?_⟩
  rw [get?_setAt]
  split
  next h => exact iff_of_false hitem (h.2 ▸ hplace)
  next => rfl

theorem enter_eq_ok_iff : t.enter place = .ok () ↔ t.get? place = some .directory := by
  unfold enter
  split <;> simp_all

theorem walk_cons (name : String) :
    t.walk place (name :: names) = .ok other ↔
      t.get? place = some .directory ∧ checkName name = .ok () ∧
        t.walk (follow place name) names = .ok other := by
  rw [walk, bind_unit_eq_ok_iff, bind_unit_eq_ok_iff, enter_eq_ok_iff]

/-- Names lead somewhere if all but the last ones lead to where these can go on from. -/
theorem walk_append (front back : List String) :
    t.walk place (front ++ back) = .ok other ↔
      ∃ between, t.walk place front = .ok between ∧ t.walk between back = .ok other := by
  induction front generalizing place with
  | nil => simp [walk]
  | cons name front ih => simp [walk_cons, ih, and_assoc]

namespace SameDirectories

variable (h : t.SameDirectories t')
include h

theorem walk_eq_ok_iff {start : List String} :
    t'.walk start names = .ok other ↔ t.walk start names = .ok other := by
  induction names generalizing start with
  | nil => rfl
  | cons name names ih => rw [walk_cons, walk_cons, h.directory_iff, ih]

theorem locate_eq_ok_iff : t'.locate path = .ok other ↔ t.locate path = .ok other := by
  unfold locate start
  rw [bind_unit_eq_ok_iff, bind_unit_eq_ok_iff, h.working, h.walk_eq_ok_iff]

end SameDirectories

/-! ## Reading -/

/-- A file is found where a path leads to it. -/
theorem find_eq_ok_iff :
    t.find path = .ok (place, bytes) ↔
      t.locate path = .ok place ∧ t.get? place = some (.file bytes) := by
  rw [find, bind_eq_ok_iff]
  constructor
  · rintro ⟨place', hlocate, h⟩
    split at h
    next => cases h
    next => cases h
    next bytes' hfile =>
      cases h
      exact ⟨hlocate, hfile⟩
  · rintro ⟨hlocate, hfile⟩
    refine ⟨place, hlocate, ?_⟩
    rw [hfile]
    rfl

theorem fromUTF8?_eq_some_iff : String.fromUTF8? bytes = some content ↔ bytes = content.toUTF8 := by
  unfold String.fromUTF8?
  constructor
  · intro h
    split at h
    next =>
      cases h
      rfl
    next => cases h
  · rintro rfl
    exact dif_pos content.isValidUTF8

/-- A path reads as a text if it leads to a file that holds it. -/
theorem read_eq_ok_iff :
    t.read path = .ok content ↔
      ∃ place, t.locate path = .ok place ∧ t.get? place = some (.file content.toUTF8) := by
  simp only [← find_eq_ok_iff]
  rw [read, bind_eq_ok_iff]
  constructor
  · rintro ⟨⟨place, bytes⟩, hfind, h⟩
    dsimp only at h
    split at h
    next text htext =>
      cases h
      exact ⟨place, by rw [hfind, fromUTF8?_eq_some_iff.mp htext]⟩
    next => cases h
  · rintro ⟨place, hfind⟩
    have htext : String.fromUTF8? content.toUTF8 = some content := fromUTF8?_eq_some_iff.mpr rfl
    refine ⟨_, hfind, ?_⟩
    simp only [htext]
    rfl

/-! ## A file in its place -/

/-- There is a file at a place, and elsewhere the second tree is as the first. -/
structure Put (t t' : FileTree) (place : List String) (bytes : ByteArray) : Prop where
  /-- The file is not where a directory was. -/
  not_directory : t.get? place ≠ some .directory
  working : t'.working = t.working
  get?_self : t'.get? place = some (.file bytes)
  get?_of_ne : ∀ other, other ≠ place → t'.get? other = t.get? other

theorem ne_nil_of_get? (h : t.get? place ≠ some .directory) : place ≠ [] := by
  rintro rfl
  exact h t.get?_nil

theorem put_setAt (h : t.get? place ≠ some .directory) (bytes : ByteArray) :
    t.Put (t.setAt place (some (.file bytes))) place bytes :=
  ⟨h, rfl, get?_setAt_self t _ (ne_nil_of_get? h), fun _ hother => get?_setAt_of_ne t _ hother⟩

/-- A file that is there may as well have just been put there. -/
theorem put_of_get? (h : t.get? place = some (.file bytes)) : t.Put t place bytes :=
  ⟨by simp [h], rfl, h, fun _ _ => rfl⟩

namespace Put

variable (h : t.Put t' place bytes)
include h

theorem sameDirectories : t.SameDirectories t' := by
  refine ⟨h.working, fun other => ?_⟩
  by_cases hother : other = place
  · subst hother
    exact iff_of_false (by simp [h.get?_self]) h.not_directory
  · rw [h.get?_of_ne other hother]

theorem read_eq_ok (hbytes : bytes = content.toUTF8) (hlocate : t.locate path = .ok place) :
    t'.read path = .ok content :=
  read_eq_ok_iff.mpr
    ⟨place, h.sameDirectories.locate_eq_ok_iff.mpr hlocate, hbytes ▸ h.get?_self⟩

/-- What leads elsewhere reads as before. -/
theorem read_of_ne (hread : t.read path = .ok content) (hne : t.locate path ≠ .ok place) :
    t'.read path = .ok content := by
  obtain ⟨other, hlocate, hfile⟩ := read_eq_ok_iff.mp hread
  have hother : other ≠ place := fun heq => hne (heq ▸ hlocate)
  exact read_eq_ok_iff.mpr ⟨other, h.sameDirectories.locate_eq_ok_iff.mpr hlocate,
    by rw [h.get?_of_ne other hother, hfile]⟩

end Put

/-! ## Drafts -/

/-- The second tree is as the first but for a draft, where there was nothing before. -/
structure Drafted (t t' : FileTree) (draft : String) (place : List String) (bytes : ByteArray) :
    Prop where
  free : t.get? place = none
  tree : t' = t.setAt place (some (.file bytes))
  locate : t'.locate draft = .ok place

theorem drafted_setAt {draft : String} (hfree : t.get? place = none)
    (hlocate : t.locate draft = .ok place) (bytes : ByteArray) :
    t.Drafted (t.setAt place (some (.file bytes))) draft place bytes :=
  ⟨hfree, rfl,
    (sameDirectories_setAt (by simp [hfree]) (by simp)).locate_eq_ok_iff.mpr hlocate⟩

namespace Drafted

variable {draft : String} (h : t.Drafted t' draft place bytes)
include h

theorem sameDirectories : t.SameDirectories t' := by
  rw [h.tree]
  exact sameDirectories_setAt (by simp [h.free]) (by simp)

theorem find_eq : t'.find draft = .ok (place, bytes) := by
  have hne : place ≠ [] := ne_nil_of_get? (t := t) (by simp [h.free])
  refine find_eq_ok_iff.mpr ⟨h.locate, ?_⟩
  rw [h.tree, get?_setAt_self t _ hne]

/-- A draft stays one if something else is written into it. -/
theorem setAt_file (bytes' : ByteArray) :
    t.Drafted (t'.setAt place (some (.file bytes'))) draft place bytes' := by
  rw [h.tree, setAt_setAt]
  exact drafted_setAt h.free (h.sameDirectories.locate_eq_ok_iff.mp h.locate) bytes'

/-- Without the draft, the tree is as it was. -/
theorem setAt_none : t'.setAt place none = t := by
  rw [h.tree, setAt_setAt, ← h.free, setAt_get?]

/-- A draft that is moved to the end of a path is put there. -/
theorem put {target : List String} (hlocate : t'.locate path = .ok target)
    (htarget : t'.get? target ≠ some .directory) :
    t.locate path = .ok target ∧
      t.Put ((t'.setAt place none).setAt target (some (.file bytes))) target bytes := by
  rw [h.setAt_none]
  exact ⟨h.sameDirectories.locate_eq_ok_iff.mp hlocate,
    put_setAt (fun hdirectory => htarget ((h.sameDirectories.directory_iff target).mpr hdirectory))
      bytes⟩

end Drafted

/-! ## Entries -/

/-- Without a slash at the end, the last name of a path is its last piece. -/
theorem eq_append_of_dropWhile {before : List String} {name : String}
    (h : names.reverse.dropWhile (·.isEmpty) = name :: before) (hslash : names.getLast? ≠ some "") :
    names = before.reverse ++ [name] ∧ name ≠ "" := by
  rw [← List.head?_reverse] at hslash
  rw [← names.reverse_reverse]
  generalize names.reverse = back at h hslash
  cases back with
  | nil => cases h
  | cons last back =>
    have hlast : last ≠ "" := by simpa using hslash
    rw [List.dropWhile_cons_of_neg (by simpa using hlast)] at h
    cases h
    exact ⟨List.reverse_cons, hlast⟩

/-- An entry that no slash follows is where its path leads. -/
theorem locate_of_entry {name : String} (h : t.entry path = .ok ⟨directory, some name, false⟩)
    (hname : checkName name = .ok ()) : t.locate path = .ok (directory ++ [name]) := by
  obtain ⟨hpath, h⟩ := bind_unit_eq_ok_iff.mp h
  dsimp only at h
  split at h
  next => cases h
  next last before hnames =>
    obtain ⟨between, hwalk, h⟩ := bind_eq_ok_iff.mp h
    obtain ⟨henter, h⟩ := bind_unit_eq_ok_iff.mp h
    obtain ⟨rfl, hlast, hslash⟩ := Entry.mk.inj (Except.ok.inj h)
    obtain ⟨hnames, hne⟩ := eq_append_of_dropWhile hnames (by simpa using hslash)
    split at hlast
    next => cases hlast
    next hdots =>
      cases hlast
      obtain ⟨hdot, hdots⟩ : name ≠ "." ∧ name ≠ ".." := by simpa using hdots
      have hfollow : follow between name = between ++ [name] := by
        rw [follow, if_neg (by simp [hne, hdot]), if_neg hdots]
      refine bind_unit_eq_ok_iff.mpr ⟨hpath, ?_⟩
      rw [hnames, walk_append]
      exact ⟨between, hwalk, (walk_cons name).mpr
        ⟨enter_eq_ok_iff.mp henter, hname, by rw [hfollow, walk]⟩⟩

/-! ## Operations that succeed -/

theorem putAt_eq_ok_iff :
    t.putAt place bytes = .ok t' ↔
      t.get? place ≠ some .directory ∧ t' = t.setAt place (some (.file bytes)) := by
  unfold putAt
  split
  next hdirectory => simp [hdirectory]
  next hfree =>
    rw [Except.ok.injEq, eq_comm]
    exact (and_iff_right hfree).symm

theorem create_eq_ok (h : t.create path = .ok t') :
    ∃ place, t.Drafted t' path place .empty := by
  obtain ⟨⟨directory, name, slash⟩, hentry, h⟩ := bind_eq_ok_iff.mp h
  cases name with
  | none => cases h
  | some name =>
    cases slash with
    | true => cases h
    | false =>
      obtain ⟨hname, h⟩ := bind_unit_eq_ok_iff.mp h
      dsimp only at h
      split at h
      next => cases h
      next hfree =>
        cases h
        exact ⟨directory ++ [name], drafted_setAt (by simpa using hfree)
          (locate_of_entry hentry hname) .empty⟩

theorem write_eq_ok (h : t.write path bytes = .ok t') :
    ∃ place, t.locate path = .ok place ∧ t' = t.setAt place (some (.file bytes)) := by
  obtain ⟨⟨directory, name, slash⟩, hentry, h⟩ := bind_eq_ok_iff.mp h
  cases name with
  | none => cases h
  | some name =>
    cases slash with
    | true => cases h
    | false =>
      obtain ⟨hname, h⟩ := bind_unit_eq_ok_iff.mp h
      exact ⟨_, locate_of_entry hentry hname, (putAt_eq_ok_iff.mp h).2⟩

theorem move_eq_ok {source : String} (hfind : t.find source = .ok (place, bytes))
    (h : t.move source path = .ok t') :
    ∃ target, t.locate path = .ok target ∧ t.get? target ≠ some .directory ∧
      t' = (t.setAt place none).setAt target (some (.file bytes)) := by
  rw [move, hfind, ok_bind] at h
  obtain ⟨⟨directory, name, slash⟩, hentry, h⟩ := bind_eq_ok_iff.mp h
  cases name with
  | none => cases h
  | some name =>
    obtain ⟨hname, h⟩ := bind_unit_eq_ok_iff.mp h
    cases slash with
    | true => cases h
    | false =>
      obtain ⟨hfree, htree⟩ := putAt_eq_ok_iff.mp h
      have hplace : t.get? place ≠ some .directory := by simp [(find_eq_ok_iff.mp hfind).2]
      have hsame : t.SameDirectories (t.setAt place none) := sameDirectories_setAt hplace (by simp)
      exact ⟨_, locate_of_entry hentry hname,
        fun hdirectory => hfree ((hsame.directory_iff _).mpr hdirectory), htree⟩

theorem remove_of_find (h : t.find path = .ok (place, bytes)) :
    t.remove path = .ok (t.setAt place none) := by
  rw [remove, h]
  rfl

end Shorthand.FileTree
