import Lox.Proofs.Coherence
import Lox.Proofs.Raising

set_option autoImplicit false

namespace Lox

variable {x : String}

def Expr.Avoids (x : String) : Expr → Prop
  | .var name | .assign name _ => name.lexeme ≠ x
  | .literal _ | .unary _ _ | .binary _ _ _ | .logical _ _ _ | .grouping _ => True

def Stmt.Avoids (x : String) : Stmt → Prop
  | .declare name _ => name.lexeme ≠ x
  | .print _ | .expression _ | .block _ | .ifThen _ _ | .ifElse _ _ _ | .loop _ _ => True

namespace Store

/-- The same scopes with the same bindings of all names but `x`. -/
structure AgreesApart (x : String) (st w : Store) : Prop where
  links : w.links = st.links
  binding : ∀ k y, y ≠ x → w.binding k y = st.binding k y

/-- The same scopes with the same bindings of `x`. -/
structure Spares (x : String) (st st' : Store) : Prop where
  links : st'.links = st.links
  binding : ∀ k, st'.binding k x = st.binding k x

theorem size_eq_of_links {st w : Store} (h : w.links = st.links) : w.size = st.size := by
  rw [← size_links, h, size_links]

theorem binding_of_size_le {st : Store} {k : Nat} (h : st.size ≤ k) (y : String) : st.binding k y = none := by
  rw [binding, Array.getElem?_eq_none h]
  rfl

theorem binding_push (st : Store) (parent : Option Nat) (k : Nat) (y : String) :
    (st.push parent).binding k y = st.binding k y := by
  rcases Nat.lt_trichotomy k st.size with hlt | heq | hgt
  · exact binding_congr (scopes_push_of_lt hlt parent) y
  · have hnew : (st.push parent).scopes[k]? = some { parent } := heq ▸ Array.getElem?_push_size
    rw [binding_of_size_le (Nat.le_of_eq heq.symm), binding, hnew]
    rfl
  · rw [binding_of_size_le (Nat.le_of_lt hgt), binding_of_size_le]
    rw [size_push]
    exact hgt

theorem binding_pop_of_lt {st : Store} {k : Nat} (h : k + 1 < st.size) (y : String) :
    st.pop.binding k y = st.binding k y :=
  binding_congr (scopes_pop_of_lt h) y

theorem binding_pop_of_le {st : Store} {k : Nat} (h : st.size ≤ k + 1) (y : String) :
    st.pop.binding k y = none := by
  refine binding_of_size_le ?_ y
  rw [size_pop]
  exact Nat.sub_le_of_le_add h

namespace AgreesApart

variable {st w : Store} (h : st.AgreesApart x w)

include h

theorem resolve {name : String} (hname : name ≠ x) (i : Nat) : w.resolve i name = st.resolve i name := by
  induction i using Nat.strongRecOn with
  | ind i ih =>
    rw [resolve_eq, resolve_eq st, h.links, binds_congr (h.binding i name hname)]
    split
    · rfl
    · split
      · split
        · exact ih _ (by assumption)
        · rfl
      · rfl

theorem define (i : Nat) {name : String} (hname : name ≠ x) (value : Value) :
    (st.define i name value).AgreesApart x (w.define i name value) := by
  refine ⟨by rw [links_define, links_define, h.links], fun k y hy => ?_⟩
  by_cases hother : k ≠ i ∨ y ≠ name
  · rw [binding_define_of_ne hother, binding_define_of_ne hother, h.binding k y hy]
  · obtain ⟨rfl, rfl⟩ : k = i ∧ y = name := by simpa using hother
    have hsize : w.size = st.size := size_eq_of_links h.links
    by_cases hk : k < st.size
    · rw [binding_define_self hk, binding_define_self (hsize ▸ hk)]
    · have hle : (st.define k y value).size ≤ k := (size_define st k y value).symm ▸ Nat.le_of_not_lt hk
      have hle' : (w.define k y value).size ≤ k := by rwa [size_define, hsize, ← size_define st k y value]
      rw [binding_of_size_le hle, binding_of_size_le hle']

theorem push (parent : Option Nat) : (st.push parent).AgreesApart x (w.push parent) := by
  refine ⟨by rw [links_push, links_push, h.links], fun k y hy => ?_⟩
  rw [binding_push, binding_push, h.binding k y hy]

theorem pop : st.pop.AgreesApart x w.pop := by
  have hsize : w.size = st.size := size_eq_of_links h.links
  refine ⟨by rw [links_pop, links_pop, h.links], fun k y hy => ?_⟩
  by_cases hk : k + 1 < st.size
  · rw [binding_pop_of_lt hk, binding_pop_of_lt (hsize ▸ hk), h.binding k y hy]
  · rw [binding_pop_of_le (Nat.le_of_not_lt hk), binding_pop_of_le (hsize ▸ Nat.le_of_not_lt hk)]

end AgreesApart

namespace Spares

theorem refl (x : String) (st : Store) : st.Spares x st := ⟨rfl, fun _ => rfl⟩

theorem trans {st mid st' : Store} (h : st.Spares x mid) (h' : mid.Spares x st') : st.Spares x st' :=
  ⟨h'.links.trans h.links, fun k => (h'.binding k).trans (h.binding k)⟩

theorem define (st : Store) (i : Nat) {name : String} (hname : name ≠ x) (value : Value) :
    st.Spares x (st.define i name value) :=
  ⟨links_define st i name value, fun _ => binding_define_of_ne (.inr hname.symm) value⟩

theorem pop {st st' : Store} {parent : Option Nat} (h : (st.push parent).Spares x st') :
    st.Spares x st'.pop := by
  have hsize : st'.size = st.size + 1 := (size_eq_of_links h.links).trans (size_push st parent)
  refine ⟨by rw [links_pop, h.links, links_push, Array.pop_push], fun k => ?_⟩
  by_cases hk : k < st.size
  · rw [binding_pop_of_lt (by omega), h.binding k, binding_push]
  · rw [binding_pop_of_le (by omega), binding_of_size_le (Nat.le_of_not_lt hk)]

end Spares

end Store

/-- On stores that agree apart from `x` the computation does the same, and spares `x` in both. -/
def Eval.Ignores {α : Type} (x : String) (c : Eval α) : Prop :=
  ∀ st w, st.AgreesApart x w →
    (c w).1 = (c st).1 ∧ (c st).2.AgreesApart x (c w).2 ∧ st.Spares x (c st).2 ∧ w.Spares x (c w).2

namespace Eval.Ignores

variable {α β : Type}

theorem ofExcept (r : Except RuntimeError α) : Ignores x (Eval.ofExcept r) :=
  fun _ _ h => ⟨rfl, h, .refl x _, .refl x _⟩

theorem bind {c : Eval α} {f : α → Eval β} (hc : Ignores x c) (hf : ∀ a, Ignores x (f a)) :
    Ignores x (c >>= f) := by
  intro st w h
  obtain ⟨hr, hafter, hst, hw⟩ := hc st w h
  rw [bind_apply, bind_apply]
  rcases hx : c st with ⟨_ | a, st'⟩ <;> rcases hy : c w with ⟨_ | b, w'⟩ <;>
    rw [hx, hy] at hr hafter <;> rw [hx] at hst <;> rw [hy] at hw <;> cases hr
  · exact ⟨rfl, hafter, hst, hw⟩
  · obtain ⟨hr, hlast, hst', hw'⟩ := hf a st' w' hafter
    exact ⟨hr, hlast, hst.trans hst', hw.trans hw'⟩

theorem get (scope : Nat) {name : Token} (hname : name.lexeme ≠ x) : Ignores x (Eval.get scope name) := by
  intro st w h
  have hlookup : w.lookup scope name.lexeme = st.lookup scope name.lexeme := by
    rw [Store.lookup, Store.lookup, h.resolve hname]
    cases st.resolve scope name.lexeme with
    | none => rfl
    | some k => exact h.binding k name.lexeme hname
  refine ⟨?_, h, .refl x st, .refl x w⟩
  simp only [Eval.get, Store.get, hlookup]

theorem assign (scope : Nat) {name : Token} (hname : name.lexeme ≠ x) (value : Value) :
    Ignores x (Eval.assign scope name value) := by
  intro st w h
  rw [Eval.assign_apply, Eval.assign_apply, h.resolve hname]
  cases st.resolve scope name.lexeme with
  | none => exact ⟨rfl, h, .refl x st, .refl x w⟩
  | some k => exact ⟨rfl, h.define k hname value, .define st k hname value, .define w k hname value⟩

end Eval.Ignores

theorem Expr.eval_ignores {e : Expr} (h : e.All (Expr.Avoids x)) (scope : Nat) :
    Eval.Ignores x (e.eval scope) := by
  induction e with
  | literal value => exact .ofExcept (.ok value)
  | var name => exact .get scope h
  | assign name value ih => exact .bind (ih h.2) fun v => .assign scope h.1 v
  | unary op operand ih => exact .bind (ih h.2) fun v => .ofExcept _
  | binary op left right ihl ihr => exact .bind (ihl h.2.1) fun l => .bind (ihr h.2.2) fun r => .ofExcept _
  | logical op left right ihl ihr =>
    refine .bind (ihl h.2.1) fun l => ?_
    split
    · exact .ofExcept (.ok l)
    · exact ihr h.2.2
  | grouping inner ih => exact ih h.2

/-- The machines differ at most in the bindings of `x`. -/
structure Machine.AgreesApart (x : String) (m w : Machine) : Prop where
  store : m.store.AgreesApart x w.store
  current : w.current = m.current
  out : w.out = m.out

/-- From machines that agree apart from `x` the computation comes to the same end, or to none, and spares
`x` in both. -/
def Exec.Ignores {α : Type} (x : String) (c : Exec α) : Prop :=
  ∀ m w, m.AgreesApart x w →
    Option.Rel (fun a b => b.1 = a.1 ∧ a.2.AgreesApart x b.2 ∧ m.store.Spares x a.2.store ∧
      w.store.Spares x b.2.store) (c m) (c w)

namespace Exec.Ignores

variable {α β : Type}

theorem outOfSteps : Ignores x (Exec.outOfSteps : Exec α) := fun _ _ _ => .none

theorem pure (a : α) : Ignores x (Pure.pure a : Exec α) :=
  fun _ _ h => .some ⟨rfl, h, .refl x _, .refl x _⟩

theorem bind {c : Exec α} {f : α → Exec β} (hc : Ignores x c) (hf : ∀ a, Ignores x (f a)) :
    Ignores x (c >>= f) := by
  intro m w h
  have hfirst := hc m w h
  rw [bind_apply, bind_apply]
  generalize c m = a at hfirst ⊢
  generalize c w = b at hfirst ⊢
  cases hfirst with
  | none => exact .none
  | @some a b hab =>
    obtain ⟨r, m'⟩ := a
    obtain ⟨r', w'⟩ := b
    obtain ⟨hr, hafter, hm, hw⟩ := hab
    cases hr
    cases r with
    | error err => exact .some ⟨rfl, hafter, hm, hw⟩
    | ok value =>
      have hsecond := hf value m' w' hafter
      dsimp only at hm hw ⊢
      generalize f value m' = a at hsecond ⊢
      generalize f value w' = b at hsecond ⊢
      cases hsecond with
      | none => exact .none
      | some hab =>
        obtain ⟨hr, hlast, hm', hw'⟩ := hab
        exact .some ⟨hr, hlast, hm.trans hm', hw.trans hw'⟩

theorem eval {e : Expr} (he : e.All (Expr.Avoids x)) : Ignores x (Exec.eval e) := by
  intro m w h
  obtain ⟨hr, hafter, hm, hw⟩ := Expr.eval_ignores he m.current m.store w.store h.store
  rw [Exec.eval, Exec.eval, h.current]
  exact .some ⟨hr, ⟨hafter, rfl, h.out⟩, hm, hw⟩

theorem print (value : Value) : Ignores x (Exec.print value) := by
  intro m w h
  rw [Exec.print, Exec.print, h.out]
  split
  · exact .some ⟨rfl, ⟨h.store, h.current, rfl⟩, .refl x _, .refl x _⟩
  · exact .some ⟨rfl, ⟨h.store, h.current, rfl⟩, .refl x _, .refl x _⟩

theorem define {name : String} (hname : name ≠ x) (value : Value) : Ignores x (Exec.define name value) := by
  intro m w h
  rw [Exec.define, Exec.define, h.current]
  exact .some ⟨rfl, ⟨h.store.define m.current hname value, rfl, h.out⟩,
    .define m.store m.current hname value, .define w.store m.current hname value⟩

theorem inScope (scope : Nat) {c : Exec α} (hc : Ignores x c) : Ignores x (Exec.inScope scope c) := by
  intro m w h
  have hbody := hc { m with current := scope } { w with current := scope } ⟨h.store, rfl, h.out⟩
  rw [Exec.inScope, Exec.inScope]
  generalize c _ = a at hbody ⊢
  generalize c _ = b at hbody ⊢
  cases hbody with
  | none => exact .none
  | some hab =>
    obtain ⟨hr, hafter, hm, hw⟩ := hab
    exact .some ⟨hr, ⟨hafter.store, h.current, hafter.out⟩, hm, hw⟩

theorem inNewScope {c : Exec α} (hc : Ignores x c) : Ignores x (Exec.inNewScope c) := by
  intro m w h
  have hsize : w.store.size = m.store.size := Store.size_eq_of_links h.store.links
  have hbody := hc.inScope m.store.size { m with store := m.store.push (some m.current) }
    { w with store := w.store.push (some m.current) } ⟨h.store.push _, h.current, h.out⟩
  rw [Exec.inNewScope, Exec.inNewScope, hsize, h.current]
  rw [h.current] at hbody
  generalize Exec.inScope m.store.size c _ = a at hbody ⊢
  generalize Exec.inScope m.store.size c _ = b at hbody ⊢
  cases hbody with
  | none => exact .none
  | some hab =>
    obtain ⟨hr, hafter, hm, hw⟩ := hab
    exact .some ⟨hr, ⟨hafter.store.pop, hafter.current, hafter.out⟩, hm.pop, hw.pop⟩

theorem forM {f : Stmt → Exec Unit} {body : List Stmt} (h : ∀ s ∈ body, Ignores x (f s)) :
    Ignores x (body.forM f) := by
  induction body with
  | nil => exact pure ()
  | cons s rest ih =>
    obtain ⟨hs, hrest⟩ := List.forall_mem_cons.mp h
    exact bind hs fun _ => ih hrest

end Exec.Ignores

theorem Stmt.exec_ignores (steps : Nat) {s : Stmt} (h : s.All (Stmt.Avoids x) (Expr.Avoids x)) :
    Exec.Ignores x (s.exec steps) := by
  induction steps generalizing s with
  | zero => exact .outOfSteps
  | succ steps ih =>
    cases s with
    | print value => exact .bind (.eval h.2) fun v => .print v
    | expression value => exact .bind (.eval h.2) fun _ => .pure ()
    | declare name initial =>
      cases initial with
      | none => exact .define h .nil
      | some e => exact .bind (.eval h.2) fun v => .define h.1 v
    | block body => exact .inNewScope (.forM fun s hs => ih (Stmt.allIn_iff.mp h.2 s hs))
    | ifThen condition body =>
      refine .bind (.eval h.2.1) fun v => ?_
      split
      · exact ih h.2.2
      · exact .pure ()
    | ifElse condition body otherwise =>
      refine .bind (.eval h.2.1) fun v => ?_
      split
      · exact ih h.2.2.1
      · exact ih h.2.2.2
    | loop condition body =>
      refine .bind (.eval h.2.1) fun v => ?_
      split
      · exact .bind (ih h.2.2) fun _ => ih h
      · exact .pure ()

namespace Machine

variable {program : List Stmt}

theorem executeAll_ignores (h : ∀ s ∈ program, s.All (Stmt.Avoids x) (Expr.Avoids x)) (steps : Nat) :
    Exec.Ignores x (executeAll steps program) :=
  .forM fun s hs => Stmt.exec_ignores steps (h s hs)

theorem interpret_ignores (h : ∀ s ∈ program, s.All (Stmt.Avoids x) (Expr.Avoids x)) (steps : Nat) :
    Exec.Ignores x (interpret steps program) := by
  intro m w hmw
  have hrun := executeAll_ignores h steps m w hmw
  rw [interpret, interpret]
  generalize executeAll steps program m = a at hrun ⊢
  generalize executeAll steps program w = b at hrun ⊢
  cases hrun with
  | none => exact .none
  | @some a b hab =>
    obtain ⟨r, m'⟩ := a
    obtain ⟨r', w'⟩ := b
    obtain ⟨hr, hafter, hm, hw⟩ := hab
    cases hr
    cases r with
    | ok => exact .some ⟨rfl, hafter, hm, hw⟩
    | error err => exact .some ⟨rfl, ⟨hafter.store, rfl, hafter.out⟩, hm, hw⟩

end Machine

/-- A program that does not name `x` runs alike on two machines that agree apart from the bindings of `x`,
from whatever scope: with the same steps it ends on both or on neither, and then with the same result, the
same output and stores that agree apart from `x` again, while every scope of either machine binds `x` just
as before. -/
theorem run_independent_of_unnamed {x : String} {program : List Stmt}
    (hx : ∀ s ∈ program, s.All (Stmt.Avoids x) (Expr.Avoids x)) {m w : Machine}
    (hstore : m.store.AgreesApart x w.store) (hcurrent : w.current = m.current) (hout : w.out = m.out)
    (steps scope : Nat) :
    ∀ run ∈ [Machine.interpret steps program, Machine.executeIn steps scope program],
      (run m = none ↔ run w = none) ∧
        ∀ r m', run m = some (r, m') → ∃ w', run w = some (r, w') ∧ w'.out = m'.out ∧
          w'.current = m'.current ∧ m'.store.AgreesApart x w'.store ∧
          m.store.Spares x m'.store ∧ w.store.Spares x w'.store := by
  intro run hmem
  have hrun : Exec.Ignores x run := by
    rcases List.mem_cons.mp hmem with rfl | hmem
    · exact Machine.interpret_ignores hx steps
    · rw [List.mem_singleton.mp hmem]
      exact (Machine.executeAll_ignores hx steps).inScope scope
  have hrel := hrun m w ⟨hstore, hcurrent, hout⟩
  generalize run m = a at hrel ⊢
  generalize run w = b at hrel ⊢
  cases hrel with
  | none =>
    refine ⟨Iff.rfl, fun r m' h => ?_⟩
    cases h
  | @some a b hab =>
    obtain ⟨r', w'⟩ := b
    obtain ⟨hr, hafter, hm, hw⟩ := hab
    cases hr
    refine ⟨by simp, fun r m' h => ?_⟩
    cases h
    exact ⟨w', rfl, hafter.out, hafter.current, hafter.store, hm, hw⟩

theorem run_independent_of_unnamed_shadowing :
    let token (name : String) : Token := ⟨.identifier, name, 1, none⟩
    let program := [Stmt.block [.declare (token "b") (some (.var (token "a"))), .print (.var (token "b")),
      .expression (.assign (token "a") (.literal (.boolean true))),
      .expression (.assign (token "c") (.literal .nil))]]
    let m : Machine := ⟨⟨#[⟨[("a", .nil), ("x", .nil)], none⟩, ⟨[], some 0⟩]⟩, 1, {}⟩
    let w : Machine := ⟨⟨#[⟨[("a", .nil)], none⟩, ⟨[("x", .boolean true)], some 0⟩]⟩, 1, {}⟩
    (∀ s ∈ program, s.All (Stmt.Avoids "x") (Expr.Avoids "x")) ∧ m.store.AgreesApart "x" w.store ∧
      ∃ m' w', Machine.interpret 2 program m = some (.error (.undefinedVariable (token "c")), m') ∧
        Machine.interpret 2 program w = some (.error (.undefinedVariable (token "c")), w') ∧
        w'.out = m'.out ∧ m'.store.binding 0 "x" = some .nil ∧ w'.store.binding 1 "x" = some (.boolean true) := by
  intro token program m w
  -- On the second machine the name is bound in another scope and to another value.
  have hx : ∀ s ∈ program, s.All (Stmt.Avoids "x") (Expr.Avoids "x") := by
    simp [program, token, Stmt.All, Stmt.AllIn, Stmt.Avoids, Expr.All, Expr.Avoids]
  have hstore : m.store.AgreesApart "x" w.store := by
    refine ⟨by simp [Store.links, m, w], fun k y hy => ?_⟩
    rcases k with _ | _ | k
    · simp [Store.binding, Scope.get?, m, w, List.lookup_cons, beq_false_of_ne hy]
    · simp [Store.binding, Scope.get?, m, w, List.lookup_cons, beq_false_of_ne hy]
    · simp [Store.binding, m, w]
  obtain ⟨m', hm⟩ : ∃ m', Machine.interpret 2 program m =
      some (.error (.undefinedVariable (token "c")), m') := ⟨_, by with_unfolding_all rfl⟩
  obtain ⟨w', hw, hout, -, -, hspared, hspared'⟩ :=
    (run_independent_of_unnamed hx hstore rfl rfl 2 0 _ List.mem_cons_self).2 _ m' hm
  exact ⟨hx, hstore, m', w', hm, hw, hout, hspared.binding 0, hspared'.binding 1⟩

end Lox
