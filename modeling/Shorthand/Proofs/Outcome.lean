import Shorthand.Log
import Mathlib.Data.List.Forall2

/-!
# Outcomes of computations that may fail

What it says about the parts of a computation that the whole of it succeeds, and where its error comes
from if it fails: for sequences of two steps, for a step done for every element of a list, for
computations that keep a state, and for logged computations, whose result does not depend on the log.
-/

namespace Shorthand

variable {ε ε' α β : Type}

/-! ## Plain computations -/

@[simp] theorem ok_bind (a : α) (f : α → Except ε β) : Except.ok a >>= f = f a := rfl

@[simp] theorem error_bind (e : ε) (f : α → Except ε β) :
    (Except.error e : Except ε α) >>= f = .error e := rfl

/-- Two steps succeed if the first one does and the second one does after it. -/
theorem bind_eq_ok_iff {x : Except ε α} {f : α → Except ε β} {b : β} :
    x >>= f = .ok b ↔ ∃ a, x = .ok a ∧ f a = .ok b := by
  cases x <;> simp

theorem bind_unit_eq_ok_iff {x : Except ε Unit} {f : Unit → Except ε β} {b : β} :
    x >>= f = .ok b ↔ x = .ok () ∧ f () = .ok b := by
  rw [bind_eq_ok_iff]
  exact ⟨fun ⟨(), h⟩ => h, fun h => ⟨(), h⟩⟩

/-- Two steps fail if the first one does or the second one does after it. -/
theorem bind_eq_error_iff {x : Except ε α} {f : α → Except ε β} {e : ε} :
    x >>= f = .error e ↔ x = .error e ∨ ∃ a, x = .ok a ∧ f a = .error e := by
  cases x <;> simp

/-- A step succeeds for a whole list if it does so for every element. -/
theorem mapM_eq_ok_iff {f : α → Except ε β} {l : List α} {l' : List β} :
    l.mapM f = .ok l' ↔ List.Forall₂ (fun a b => f a = .ok b) l l' := by
  induction l generalizing l' with
  | nil =>
    rw [List.mapM_nil, List.forall₂_nil_left_iff]
    exact ⟨fun h => (Except.ok.inj h).symm, fun h => h ▸ rfl⟩
  | cons a l ih =>
    rw [List.mapM_cons, List.forall₂_cons_left_iff, bind_eq_ok_iff]
    constructor
    · rintro ⟨b, hb, h⟩
      obtain ⟨bs, hbs, h⟩ := bind_eq_ok_iff.mp h
      exact ⟨b, bs, hb, ih.mp hbs, (Except.ok.inj h).symm⟩
    · rintro ⟨b, bs, hb, hbs, rfl⟩
      exact ⟨b, hb, bind_eq_ok_iff.mpr ⟨bs, ih.mpr hbs, rfl⟩⟩

theorem exists_mem_of_forall₂ {R : α → β → Prop} {l : List α} {l' : List β}
    (h : List.Forall₂ R l l') {b : β} (hb : b ∈ l') : ∃ a ∈ l, R a b := by
  induction h with
  | nil => cases hb
  | cons hab _ ih =>
    rcases List.mem_cons.mp hb with rfl | hb
    · exact ⟨_, List.mem_cons_self .., hab⟩
    · obtain ⟨a, ha, hab⟩ := ih hb
      exact ⟨a, List.mem_cons_of_mem _ ha, hab⟩

/-- A step succeeds for a whole list if it does so for every element, whatever the results. -/
theorem exists_mapM_eq_ok_iff {f : α → Except ε β} {l : List α} :
    (∃ l', l.mapM f = .ok l') ↔ ∀ a ∈ l, ∃ b, f a = .ok b := by
  simp only [mapM_eq_ok_iff]
  induction l with
  | nil => simp
  | cons a l ih =>
    rw [List.forall_mem_cons, ← ih]
    simp only [List.forall₂_cons_left_iff]
    constructor
    · rintro ⟨l', b, bs, hb, hbs, rfl⟩
      exact ⟨⟨b, hb⟩, bs, hbs⟩
    · rintro ⟨⟨b, hb⟩, bs, hbs⟩
      exact ⟨b :: bs, b, bs, hb, hbs, rfl⟩

/-- A step fails for a list as it does for the first element for which it fails. -/
theorem mapM_eq_error_iff {f : α → Except ε β} {l : List α} {e : ε} :
    l.mapM f = .error e ↔
      ∃ before a after, l = before ++ a :: after ∧ (∀ b ∈ before, ∃ c, f b = .ok c) ∧
        f a = .error e := by
  induction l with
  | nil =>
    constructor
    · rintro ⟨⟩
    · rintro ⟨before, a, after, h, -⟩
      simp at h
  | cons a l ih =>
    rw [List.mapM_cons, bind_eq_error_iff]
    constructor
    · rintro (h | ⟨b, hb, h⟩)
      -- the first element fails
      · exact ⟨[], a, l, rfl, List.forall_mem_nil _, h⟩
      -- it does not, so the error is one of the rest
      · rcases bind_eq_error_iff.mp h with h | ⟨bs, -, h⟩
        · obtain ⟨before, c, after, rfl, hbefore, hc⟩ := ih.mp h
          exact ⟨a :: before, c, after, rfl, List.forall_mem_cons.mpr ⟨⟨b, hb⟩, hbefore⟩, hc⟩
        · cases h
    · rintro ⟨before, c, after, heq, hbefore, hc⟩
      -- the element that fails is the first one or one of the rest
      cases before with
      | nil =>
        obtain ⟨rfl, rfl⟩ := List.cons.inj heq
        exact .inl hc
      | cons d before =>
        obtain ⟨rfl, rfl⟩ := List.cons.inj heq
        obtain ⟨⟨b, hb⟩, hbefore⟩ := List.forall_mem_cons.mp hbefore
        exact .inr ⟨b, hb, bind_eq_error_iff.mpr (.inl (ih.mpr ⟨before, c, after, rfl, hbefore, hc⟩))⟩

/-- A step fails for a list if it does so for an element. -/
theorem exists_mapM_eq_error_iff {f : α → Except ε β} {l : List α} :
    (∃ e, l.mapM f = .error e) ↔ ∃ a ∈ l, ∃ e, f a = .error e := by
  have hnot {γ : Type} (x : Except ε γ) : (∃ e, x = .error e) ↔ ¬ ∃ c, x = .ok c := by
    cases x <;> simp
  rw [hnot, exists_mapM_eq_ok_iff]
  simp only [hnot, not_forall, exists_prop]

theorem map_getLast?_eq_none_iff {f : α → Except ε β} {l : List α} :
    (l.mapM f).map List.getLast? = .ok none ↔ l = [] := by
  constructor
  · intro h
    match hresults : l.mapM f with
    | .error e =>
      rw [hresults] at h
      cases h
    | .ok results =>
      rw [hresults] at h
      obtain rfl := List.getLast?_eq_none_iff.mp (Except.ok.inj h)
      exact List.forall₂_nil_right_iff.mp (mapM_eq_ok_iff.mp hresults)
  · rintro rfl
    rfl

/-- Of the results for a list, the last one is that for its last element. -/
theorem map_getLast?_eq_some_iff {f : α → Except ε β} {l : List α} {b : β} :
    (l.mapM f).map List.getLast? = .ok (some b) ↔
      (∀ a ∈ l, ∃ c, f a = .ok c) ∧ ∃ a, l.getLast? = some a ∧ f a = .ok b := by
  rcases List.eq_nil_or_concat l with rfl | ⟨front, a, rfl⟩
  · rw [List.mapM_nil]
    simp [Except.map, pure, Except.pure]
  · rw [← exists_mapM_eq_ok_iff, List.concat_eq_append, List.mapM_append, List.mapM_cons,
      List.mapM_nil]
    cases front.mapM f with
    | error e => simp [Except.map]
    | ok results => cases hlast : f a <;> simp [Except.map, pure, Except.pure, hlast]

/-- Steps that hand on a state fail as the first one does that fails from where those before it lead. -/
theorem foldlM_eq_error_iff {f : β → α → Except ε β} {b : β} {l : List α} {e : ε} :
    l.foldlM f b = .error e ↔
      ∃ before a after b', l = before ++ a :: after ∧ before.foldlM f b = .ok b' ∧
        f b' a = .error e := by
  constructor
  · intro h
    induction l generalizing b with
    | nil => cases h
    | cons a l ih =>
      rw [List.foldlM_cons] at h
      rcases bind_eq_error_iff.mp h with h | ⟨b', hb, h⟩
      · exact ⟨[], a, l, b, rfl, rfl, h⟩
      · obtain ⟨before, c, after, b'', rfl, hbefore, hc⟩ := ih h
        refine ⟨a :: before, c, after, b'', rfl, ?_, hc⟩
        rw [List.foldlM_cons, hb, ok_bind, hbefore]
  · rintro ⟨before, a, after, b', rfl, hbefore, ha⟩
    rw [List.foldlM_append, hbefore, ok_bind, List.foldlM_cons, ha, error_bind]

/-- A check passes for a whole list if it does so for every element. -/
theorem forM_eq_ok_iff {f : α → Except ε Unit} {l : List α} :
    l.forM f = .ok () ↔ ∀ a ∈ l, f a = .ok () := by
  induction l with
  | nil => exact ⟨fun _ => List.forall_mem_nil _, fun _ => rfl⟩
  | cons a l ih =>
    have hstep : (a :: l).forM f = f a >>= fun _ => l.forM f := rfl
    rw [hstep, bind_unit_eq_ok_iff, List.forall_mem_cons, ← ih]

theorem exists_map_eq_error_iff {g : α → β} {x : Except ε α} :
    (∃ e, x.map g = .error e) ↔ ∃ e, x = .error e := by
  cases x <;> simp [Except.map]

@[simp] theorem mapError_eq_ok_iff {f : ε → ε'} {x : Except ε α} {a : α} :
    x.mapError f = .ok a ↔ x = .ok a := by
  cases x <;> simp [Except.mapError]

@[simp] theorem mapError_eq_error_iff {f : ε → ε'} {x : Except ε α} {e : ε'} :
    x.mapError f = .error e ↔ ∃ e', x = .error e' ∧ f e' = e := by
  cases x <;> simp [Except.mapError]

/-! ## Computations with a state -/

section

variable {σ : Type} {x : ExceptT ε (StateM σ) α} {f : α → ExceptT ε (StateM σ) β} {s s' : σ}

theorem run_bind_of_ok {a : α} (h : x.run.run s = (.ok a, s')) :
    (x >>= f).run.run s = (f a).run.run s' := by
  rw [ExceptT.run_bind, StateT.run_bind, h]
  rfl

theorem run_bind_of_error {e : ε} (h : x.run.run s = (.error e, s')) :
    (x >>= f).run.run s = (.error e, s') := by
  rw [ExceptT.run_bind, StateT.run_bind, h]
  rfl

end

/-- A step with a state, done for every element of a list. -/
theorem run_mapM_cons {σ : Type} (f : α → StateM σ β) (a : α) (l : List α) (s : σ) :
    ((a :: l).mapM f).run s =
      (((f a).run s).1 :: ((l.mapM f).run ((f a).run s).2).1, ((l.mapM f).run ((f a).run s).2).2) := by
  rw [List.mapM_cons]
  rfl

/-! ## Logged computations -/

namespace LoggedExcept

@[simp] theorem result_pure (a : α) : (pure a : LoggedExcept ε α).result = .ok a := rfl

@[simp] theorem result_throw (e : ε) : (throw e : LoggedExcept ε α).result = .error e := rfl

@[simp] theorem result_report (r : Record) : (report r : LoggedExcept ε Unit).result = .ok () := rfl

@[simp] theorem result_ofExcept (x : Except ε α) : (ofExcept x).result = x := rfl

@[simp] theorem result_bind (x : LoggedExcept ε α) (f : α → LoggedExcept ε β) :
    (x >>= f).result = x.result >>= fun a => (f a).result := by
  unfold result
  rw [ExceptT.run_bind, Logged.value_bind]
  cases x.run.value <;> rfl

@[simp] theorem result_mapError (f : ε → ε') (x : LoggedExcept ε α) :
    (x.mapError f).result = x.result.mapError f := rfl

@[simp] theorem log_pure (a : α) : (pure a : LoggedExcept ε α).log = [] := rfl

@[simp] theorem log_report (r : Record) : (report r : LoggedExcept ε Unit).log = [r] := rfl

@[simp] theorem log_ofExcept (x : Except ε α) : (ofExcept x).log = [] := rfl

/-- The records of a first step that succeeds come before those of the second one. -/
theorem log_bind_of_ok {x : LoggedExcept ε α} {a : α} (h : x.result = .ok a)
    (f : α → LoggedExcept ε β) : (x >>= f).log = x.log ++ (f a).log := by
  unfold result at h
  unfold log
  rw [ExceptT.run_bind, Logged.log_bind, h]

theorem result_foldlM (f : β → α → LoggedExcept ε β) (b : β) (l : List α) :
    (l.foldlM f b).result = l.foldlM (fun b a => (f b a).result) b := by
  induction l generalizing b with
  | nil => rfl
  | cons a l ih => simp only [List.foldlM_cons, result_bind, ih]

end LoggedExcept

end Shorthand
