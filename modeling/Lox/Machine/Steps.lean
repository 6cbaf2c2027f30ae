import Lox.Machine

/-!
More steps keep a result.  `x.Refines y` says that `y` has every result of `x`; the ways of putting
computations together respect it, and so executing with more steps refines executing with fewer.
-/

set_option autoImplicit false

namespace Lox

def Exec.Refines {α : Type} (x y : Exec α) : Prop :=
  ∀ m result, x m = some result → y m = some result

namespace Exec.Refines

variable {α β : Type}

theorem refl (x : Exec α) : x.Refines x := fun _ _ h => h

theorem trans {x y z : Exec α} (h : x.Refines y) (h' : y.Refines z) : x.Refines z :=
  fun m result hx => h' m result (h m result hx)

theorem bind {x y : Exec α} {f g : α → Exec β} (h : x.Refines y) (hf : ∀ a, (f a).Refines (g a)) :
    (x >>= f).Refines (y >>= g) := by
  intro m result hr
  rw [Exec.bind_apply] at hr ⊢
  rcases hx : x m with _ | ⟨_ | a, after⟩
  · simp [hx] at hr
  · rw [h m _ hx]
    simpa [hx] using hr
  · rw [h m _ hx]
    exact hf a after result (by simpa [hx] using hr)

theorem forM {f g : α → Exec Unit} (h : ∀ a, (f a).Refines (g a)) (l : List α) :
    (l.forM f).Refines (l.forM g) := by
  induction l with
  | nil => exact refl _
  | cons a l ih => exact bind (h a) fun _ => ih

theorem inScope {x y : Exec α} (h : x.Refines y) (scope : Nat) :
    (Exec.inScope scope x).Refines (Exec.inScope scope y) := by
  intro m result hr
  obtain ⟨after, hx, rfl⟩ := Option.map_eq_some_iff.mp hr
  exact Option.map_eq_some_iff.mpr ⟨after, h _ _ hx, rfl⟩

theorem inNewScope {x y : Exec α} (h : x.Refines y) :
    (Exec.inNewScope x).Refines (Exec.inNewScope y) := by
  intro m result hr
  obtain ⟨after, hx, rfl⟩ := Option.map_eq_some_iff.mp hr
  exact Option.map_eq_some_iff.mpr ⟨after, h.inScope _ _ _ hx, rfl⟩

end Exec.Refines

theorem Stmt.exec_refines_succ (steps : Nat) (s : Stmt) :
    (s.exec steps).Refines (s.exec (steps + 1)) := by
  induction steps generalizing s with
  | zero => intro m result h; cases h
  | succ steps ih =>
    cases s with
    | print | expression => exact .refl _
    | declare name initial => cases initial <;> exact .refl _
    | block body => exact (Exec.Refines.forM ih body).inNewScope
    | ifThen condition body =>
      refine .bind (.refl _) fun c => ?_
      split
      · exact ih body
      · exact .refl _
    | ifElse condition body otherwise =>
      refine .bind (.refl _) fun c => ?_
      split
      · exact ih body
      · exact ih otherwise
    | loop condition body =>
      refine .bind (.refl _) fun c => ?_
      split
      · exact .bind (ih body) fun _ => ih _
      · exact .refl _

theorem Stmt.exec_refines {fewer more : Nat} (h : fewer ≤ more) (s : Stmt) :
    (s.exec fewer).Refines (s.exec more) := by
  induction h with
  | refl => exact .refl _
  | step _ ih => exact ih.trans (s.exec_refines_succ _)

end Lox
