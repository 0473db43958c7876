import Mathlib.Data.List.Forall2

/-!
# Passes that stop at the first failure

Both passes of the assembler go through a list and end at the first element that fails. A pass
succeeds with what its steps give, and fails with the failure of one element after a run of
elements that went through; what stands behind that element is not looked at.
-/

namespace WordAssembler.Pass

variable {α β σ ε ε' : Type}

theorem bind_eq_ok {x : Except ε α} {f : α → Except ε β} {b : β} :
    x >>= f = .ok b ↔ ∃ a, x = .ok a ∧ f a = .ok b := by
  cases x <;> simp [bind, Except.bind]

theorem bind_eq_error {x : Except ε α} {f : α → Except ε β} {e : ε} :
    x >>= f = .error e ↔ x = .error e ∨ ∃ a, x = .ok a ∧ f a = .error e := by
  cases x <;> simp [bind, Except.bind]

theorem pure_eq_ok {a b : α} : (pure a : Except ε α) = .ok b ↔ a = b := by
  simp [pure, Except.pure]

theorem mapError_eq_ok {x : Except ε α} {g : ε → ε'} {a : α} :
    x.mapError g = .ok a ↔ x = .ok a := by
  cases x <;> simp [Except.mapError]

theorem mapError_eq_error {x : Except ε α} {g : ε → ε'} {e' : ε'} :
    x.mapError g = .error e' ↔ ∃ e, x = .error e ∧ g e = e' := by
  cases x <;> simp [Except.mapError]

theorem map_toOption_eq_some {x : Except ε α} {f : α → β} {b : β} :
    x.toOption.map f = some b ↔ ∃ a, x = .ok a ∧ f a = b := by
  cases x <;> simp [Except.toOption]

/-- A pass over a list succeeds with the results of its elements. -/
theorem mapM_eq_ok {f : α → Except ε β} {xs : List α} {ys : List β} :
    xs.mapM f = .ok ys ↔ List.Forall₂ (fun x y => f x = .ok y) xs ys := by
  induction xs generalizing ys with
  | nil => rw [List.mapM_nil, pure_eq_ok, List.forall₂_nil_left_iff, eq_comm]
  | cons x xs ih =>
      simp only [List.mapM_cons, bind_eq_ok, pure_eq_ok, ih, List.forall₂_cons_left_iff]
      constructor
      · rintro ⟨y, hy, zs, hzs, rfl⟩
        exact ⟨y, zs, hy, hzs, rfl⟩
      · rintro ⟨y, zs, hy, hzs, rfl⟩
        exact ⟨y, hy, zs, hzs, rfl⟩

/-- A pass over a list fails with the first element that does. -/
theorem mapM_eq_error {f : α → Except ε β} {xs : List α} {e : ε} :
    xs.mapM f = .error e ↔ ∃ before x after, xs = before ++ x :: after ∧
      (∀ y ∈ before, ∃ b, f y = .ok b) ∧ f x = .error e := by
  induction xs with
  | nil => simp [pure, Except.pure]
  | cons x xs ih =>
      simp only [List.mapM_cons, bind_eq_error, ih, List.cons_eq_append_iff]
      constructor
      · rintro (hx | ⟨b, hb, ⟨before, z, after, rfl, hbefore, hz⟩ | ⟨ys, -, hpure⟩⟩)
        · exact ⟨[], x, xs, by simp, by simp, hx⟩
        · refine ⟨x :: before, z, after, by simp, ?_, hz⟩
          intro y hy
          rcases List.mem_cons.mp hy with rfl | hy
          · exact ⟨b, hb⟩
          · exact hbefore y hy
        · cases hpure
      · rintro ⟨before, z, after, ⟨rfl, hcons⟩ | ⟨rest, rfl, rfl⟩, hbefore, hz⟩
        · obtain ⟨rfl, rfl⟩ := List.cons.inj hcons
          exact Or.inl hz
        · obtain ⟨b, hb⟩ := hbefore x List.mem_cons_self
          refine Or.inr ⟨b, hb, Or.inl ⟨rest, z, after, rfl, ?_, hz⟩⟩
          intro y hy
          exact hbefore y (List.mem_cons_of_mem x hy)

theorem exists_mapM_eq_ok {f : α → Except ε β} {xs : List α} :
    (∃ ys, xs.mapM f = .ok ys) ↔ ∀ x ∈ xs, ∃ y, f x = .ok y := by
  constructor
  · rintro ⟨ys, hys⟩
    induction mapM_eq_ok.mp hys with
    | nil => simp
    | cons hx hxs ih =>
        rw [List.forall_mem_cons]
        exact ⟨⟨_, hx⟩, ih (mapM_eq_ok.mpr hxs)⟩
  · intro hall
    cases hmapM : xs.mapM f with
    | ok ys => exact ⟨ys, rfl⟩
    | error e =>
        obtain ⟨before, x, after, rfl, -, hx⟩ := mapM_eq_error.mp hmapM
        obtain ⟨y, hy⟩ := hall x (by simp)
        rw [hx] at hy
        cases hy

/-- A run fails at the first step that does, in the state that the steps before it left. -/
theorem foldlM_eq_error {f : σ → α → Except ε σ} {xs : List α} {start : σ} {e : ε} :
    xs.foldlM f start = .error e ↔ ∃ before x after state, xs = before ++ x :: after ∧
      before.foldlM f start = .ok state ∧ f state x = .error e := by
  induction xs generalizing start with
  | nil => simp [pure, Except.pure]
  | cons x xs ih =>
      simp only [List.foldlM_cons, bind_eq_error, ih, List.cons_eq_append_iff]
      constructor
      · rintro (hx | ⟨next, hnext, before, z, after, state, rfl, hbefore, hz⟩)
        · exact ⟨[], x, xs, start, by simp, rfl, hx⟩
        · exact ⟨x :: before, z, after, state, by simp,
            by rw [List.foldlM_cons, hnext]; exact hbefore, hz⟩
      · rintro ⟨before, z, after, state, ⟨rfl, hcons⟩ | ⟨rest, rfl, rfl⟩, hbefore, hz⟩
        · obtain ⟨rfl, rfl⟩ := List.cons.inj hcons
          rw [List.foldlM_nil, pure_eq_ok] at hbefore
          exact Or.inl (hbefore ▸ hz)
        · rw [List.foldlM_cons, bind_eq_ok] at hbefore
          obtain ⟨next, hnext, hrest⟩ := hbefore
          exact Or.inr ⟨next, hnext, rest, z, after, state, rfl, hrest, hz⟩

end WordAssembler.Pass
