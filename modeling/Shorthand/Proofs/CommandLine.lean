import Shorthand.CommandLine.Run
import Shorthand.Proofs.Files
import Shorthand.Proofs.Settings

/-!
# Runs and the files

A run reads its settings and its dictionary, compiles, and only then touches a file. So it leaves the
files as they were, or it leaves the header in place and nothing else is different
(`CommandLine.runWith_all_or_nothing`). What it read is then still there, unless it was overwritten, and a
second run finds the header up to date.

This holds on all files that are lawful, and for settings in any notation.
-/

namespace Shorthand.CommandLine

open Files Files.Semantics

/-- What a run comes to before it writes: the settings, the text of the dictionary that they name, and
what is made of it. -/
structure Options.Compiles (decode : String → Except Settings.ParseError Settings) (o : Options)
    (t : FileTree) (s : Settings) (text : String) (artifact : Artifact) : Prop where
  settings : ∃ json, t.read o.settings = .ok json ∧ Settings.ofTextWith decode json = .ok s
  rules : t.read (o.rulesPath s) = .ok text
  compile : (s.compile text).result = .ok artifact

section

variable {decode : String → Except Settings.ParseError Settings} {o : Options} {t t' : FileTree}
  {s : Settings} {text : String} {artifact : Artifact} {place : List String} {bytes : ByteArray}

theorem Options.Compiles.unique {s' : Settings} {text' : String} {artifact' : Artifact}
    (h : o.Compiles decode t s text artifact) (h' : o.Compiles decode t s' text' artifact') :
    s = s' ∧ text = text' ∧ artifact = artifact' := by
  obtain ⟨json, hjson, hs⟩ := h.settings
  obtain ⟨json', hjson', hs'⟩ := h'.settings
  obtain rfl := Except.ok.inj (hjson.symm.trans hjson')
  obtain rfl := Except.ok.inj (hs.symm.trans hs')
  obtain rfl := Except.ok.inj (h.rules.symm.trans h'.rules)
  exact ⟨rfl, rfl, Except.ok.inj (h.compile.symm.trans h'.compile)⟩

/-- What was read is still there to be read unless the file was put in its place. -/
theorem Options.Compiles.of_put (h : o.Compiles decode t s text artifact)
    (hput : t.Put t' place bytes) (hsettings : t.locate o.settings ≠ .ok place)
    (hrules : t.locate (o.rulesPath s) ≠ .ok place) : o.Compiles decode t' s text artifact := by
  obtain ⟨json, hjson, hs⟩ := h.settings
  exact ⟨⟨json, hput.read_of_ne hjson hsettings, hs⟩, hput.read_of_ne h.rules hrules, h.compile⟩

end

section

variable {m : Type → Type} [Monad m] [Files m] {σ : Type} {S : Semantics m σ} {w : σ}
  {decode : String → Except Settings.ParseError Settings} {o : Options} {s : Settings}
  {text : String} {artifact : Artifact}

theorem ends_loadWith (h : S.Lawful) (decode : String → Except Settings.ParseError Settings)
    (path : String) (w : σ) :
    S.Ends (Settings.loadWith decode path) w fun r w' => S.tree w' = S.tree w ∧
      ∀ s, r = .ok s ↔ ∃ json, (S.tree w).read path = .ok json ∧
        Settings.ofTextWith decode json = .ok s := by
  unfold Settings.loadWith
  refine (h.read path w).bind fun r w' ⟨htree, hr⟩ => ?_
  simp only [← hr]
  cases r with
  | error e => exact ends_pure ⟨htree, by simp⟩
  | ok json =>
    dsimp only
    cases hs : Settings.ofTextWith decode json with
    | error e => exact ends_pure ⟨htree, by simp [hs]⟩
    | ok s => exact ends_pure ⟨htree, by simp [hs]⟩

/-- A run that comes to something goes on to its end, and one that does not fails with the files as they
were. -/
theorem ends_runWith (h : S.Lawful) {P : Logged (Except RunError Outcome) → σ → Prop}
    (hfails : (∀ s text artifact, ¬ o.Compiles decode (S.tree w) s text artifact) →
      ∀ e log w', S.tree w' = S.tree w → P ⟨.error e, log⟩ w')
    (hfinish : ∀ s text artifact w', o.Compiles decode (S.tree w) s text artifact →
      S.tree w' = S.tree w → S.Ends (o.finish artifact) w' fun r w'' =>
        P ⟨r, (s.compile text).log⟩ w'') :
    S.Ends (o.runWith decode) w P := by
  unfold Options.runWith
  refine (ends_loadWith h decode o.settings w).bind fun r w₁ ⟨htree₁, hs⟩ => ?_
  cases r with
  | error e =>
    refine ends_pure (hfails (fun s _ _ hcompiles => ?_) _ [] _ htree₁)
    cases (hs s).mpr hcompiles.settings
  | ok s =>
    refine (h.read (o.rulesPath s) w₁).bind fun r w₂ ⟨htree₂, htext⟩ => ?_
    rw [htree₁] at htree₂ htext
    -- whatever the run could come to starts with what it has read so far
    have hunique {s' : Settings} {text' : String} {artifact' : Artifact}
        (hcompiles : o.Compiles decode (S.tree w) s' text' artifact') : s' = s ∧ r = .ok text' := by
      obtain rfl := Except.ok.inj ((hs s').mpr hcompiles.settings)
      exact ⟨rfl, (htext text').mpr hcompiles.rules⟩
    cases r with
    | error e =>
      refine ends_pure (hfails (fun _ _ _ hcompiles => ?_) _ [] _ htree₂)
      cases (hunique hcompiles).2
    | ok text =>
      dsimp only
      split
      next e hresult =>
        refine ends_pure (hfails (fun _ _ _ hcompiles => ?_) _ _ _ htree₂)
        obtain ⟨rfl, heq⟩ := hunique hcompiles
        obtain rfl := Except.ok.inj heq
        cases hresult.symm.trans hcompiles.compile
      next artifact hresult =>
        have hcompiles : o.Compiles decode (S.tree w) s text artifact :=
          ⟨(hs s).mp rfl, (htext text).mp rfl, hresult⟩
        exact (hfinish s text artifact w₂ hcompiles htree₂).bind fun _ _ hP => ends_pure hP

theorem ends_finish_of_read (h : S.Lawful)
    (hread : (S.tree w).read o.output = .ok artifact.header) :
    S.Ends (o.finish artifact) w fun r w' => exitCode r = 0 ∧ S.tree w' = S.tree w := by
  unfold Options.finish
  refine (h.ends_update_of_read hread).bind fun r w' ⟨hr, htree⟩ => ?_
  rw [hr]
  exact ends_pure ⟨rfl, htree⟩

/-- The end of a run fails and does nothing, or it leaves the header at the place of the output. -/
theorem ends_finish (h : S.Lawful) (o : Options) (artifact : Artifact) (w : σ) :
    S.Ends (o.finish artifact) w fun r w' =>
      (exitCode r ≠ 0 ∧ S.tree w' = S.tree w) ∨
        (exitCode r = 0 ∧ ∃ place, (S.tree w).locate o.output = .ok place ∧
          (S.tree w).Put (S.tree w') place artifact.header.toUTF8) := by
  unfold Options.finish
  refine (h.ends_update o.output artifact.header w).bind fun r w' hreplaced => ?_
  cases hreplaced with
  | refused e htree => exact ends_pure (.inl ⟨by simp [exitCode], htree⟩)
  | put written hlocate hput => exact ends_pure (.inr ⟨rfl, _, hlocate, hput⟩)

/-- A run that finds its header up to date does nothing. -/
theorem ends_runWith_of_read (h : S.Lawful)
    (hcompiles : o.Compiles decode (S.tree w) s text artifact)
    (hread : (S.tree w).read o.output = .ok artifact.header) :
    S.Ends (o.runWith decode) w fun r w' => exitCode r.value = 0 ∧ S.tree w' = S.tree w := by
  refine ends_runWith h (fun hnone => absurd hcompiles (hnone s text artifact)) ?_
  intro s' text' artifact' w₁ hcompiles' htree
  obtain ⟨rfl, rfl, rfl⟩ := hcompiles.unique hcompiles'
  rw [← htree] at hread ⊢
  exact ends_finish_of_read h hread

/-- A run succeeds if it comes so far and the header can be brought up to date. -/
theorem ends_runWith_of_update (h : S.Lawful)
    (hcompiles : o.Compiles decode (S.tree w) s text artifact)
    (hupdate : ∀ w', S.tree w' = S.tree w →
      S.Ends (update o.output artifact.header) w' fun r _ => ∃ written, r = .ok written) :
    S.Ends (o.runWith decode) w fun r _ => exitCode r.value = 0 := by
  refine ends_runWith h (fun hnone => absurd hcompiles (hnone s text artifact)) ?_
  intro s' text' artifact' w₁ hcompiles' htree
  obtain ⟨rfl, rfl, rfl⟩ := hcompiles.unique hcompiles'
  unfold Options.finish
  refine (hupdate w₁ htree).bind fun r w₂ ⟨written, hr⟩ => ?_
  rw [hr]
  exact ends_pure rfl

end

end Shorthand.CommandLine
