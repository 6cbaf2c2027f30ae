import Lox.Proofs.Footprint

/-!
An empty scope is not noticed.  Two machines run in lockstep, one of which has an extra scope `k` without
bindings between scope `p` and all that has been opened later.  What the one finds in scope `i` the other
finds in the same place, or one further on if `i` is later; and where the one is in scope `p` itself the
other is in the extra scope, so that there nothing may be declared.
-/

set_option autoImplicit false

namespace Lox

variable {k p : Nat}

def Inside (k p i : Nat) : Prop := i = p ∨ k ≤ i

/-- What takes the place of a scope that is current or encloses a later one. -/
def relink (k p i : Nat) : Nat := if i = p then k else i + 1

def shift (k i : Nat) : Nat := if i < k then i else i + 1

def Scope.relinked (k p : Nat) (s : Scope) : Scope := { s with parent := s.parent.map (relink k p) }

theorem relink_of_le (hp : p < k) {i : Nat} (hi : k ≤ i) : relink k p i = i + 1 :=
  if_neg (by omega)

theorem relink_self (k p : Nat) : relink k p p = k := if_pos rfl

theorem shift_of_le {i : Nat} (hi : k ≤ i) : shift k i = i + 1 := if_neg (by omega)

theorem shift_of_lt {i : Nat} (hi : i < k) : shift k i = i := if_pos hi

namespace Store

/-- The store `w` is `st`, which has `n` scopes, with the extra scope. -/
structure Wraps (k p n : Nat) (st w : Store) : Prop where
  enclosing : p < k
  bound : k ≤ n
  size : st.size = n
  size_wrapped : w.size = n + 1
  older : ∀ i, i < k → w.scopes[i]? = st.scopes[i]?
  extra : w.scopes[k]? = some { parent := some p }
  newer : ∀ i, k ≤ i → w.scopes[i + 1]? = st.scopes[i]?.map (Scope.relinked k p)
  inside : ∀ i s, k ≤ i → st.scopes[i]? = some s → ∃ q, s.parent = some q ∧ Inside k p q

namespace Wraps

variable {n : Nat} {st w : Store}

theorem binding_shift (h : st.Wraps k p n w) (i : Nat) (name : String) :
    w.binding (shift k i) name = st.binding i name := by
  rcases Nat.lt_or_ge i k with hi | hi
  · rw [shift_of_lt hi, binding, h.older i hi, binding]
  · rw [shift_of_le hi, binding, h.newer i hi, binding]
    cases st.scopes[i]? <;> rfl

theorem resolve_older (h : st.Wraps k p n w) {i : Nat} (hi : i < k) (name : String) :
    w.resolve i name = st.resolve i name ∧ ∀ j, st.resolve i name = some j → j < k := by
  induction i using Nat.strongRecOn with
  | ind i ih =>
    have hb : w.binds i name = st.binds i name := binds_congr (binding_congr (h.older i hi) name)
    rw [resolve_eq w, resolve_eq st, hb, getElem?_links, getElem?_links, h.older i hi]
    split
    · exact ⟨rfl, fun j hj => by cases hj; exact hi⟩
    · split
      · split
        · exact ih _ (by assumption) (by omega)
        · exact ⟨rfl, fun j hj => by cases hj⟩
      · exact ⟨rfl, fun j hj => by cases hj⟩

theorem resolve_enclosing (h : st.Wraps k p n w) (name : String) :
    w.resolve k name = (st.resolve p name).map (shift k) := by
  have hb : w.binds k name = false := by simp [binds, binding, h.extra, Scope.get?]
  obtain ⟨heq, hlt⟩ := h.resolve_older h.enclosing name
  rw [resolve_eq, hb, getElem?_links, h.extra]
  simp only [Bool.false_eq_true, if_false, Option.map_some, h.enclosing, if_true, heq]
  cases hr : st.resolve p name with
  | none => rfl
  | some j => rw [Option.map_some, shift_of_lt (hlt j hr)]

theorem resolve (h : st.Wraps k p n w) {i : Nat} (hi : Inside k p i) (name : String) :
    w.resolve (relink k p i) name = (st.resolve i name).map (shift k) := by
  -- Along the links, which lead to older scopes: to another later scope, or at last to `p`.
  induction i using Nat.strongRecOn with
  | ind i ih =>
    rcases hi with rfl | hi
    · rw [relink_self]
      exact h.resolve_enclosing name
    have hb : w.binds (i + 1) name = st.binds i name := by
      rw [← shift_of_le hi, binds, h.binding_shift, binds]
    rw [relink_of_le h.enclosing hi, resolve_eq w, resolve_eq st, hb, getElem?_links, getElem?_links,
      h.newer i hi]
    cases hs : st.scopes[i]? with
    | none => split <;> simp [shift_of_le hi]
    | some s =>
      obtain ⟨q, hq, hinside⟩ := h.inside i s hi hs
      have hlt : relink k p q < i + 1 ↔ q < i := by
        have := h.enclosing
        rcases hinside with rfl | hle
        · rw [relink_self]
          omega
        · rw [relink_of_le h.enclosing hle]
          omega
      simp only [Option.map_some, Scope.relinked, hq, hlt]
      split
      · rw [Option.map_some, shift_of_le hi]
      · split
        · exact ih q (by assumption) hinside
        · rfl

theorem define (h : st.Wraps k p n w) (i : Nat) (name : String) (value : Value) :
    (st.define i name value).Wraps k p n (w.define (shift k i) name value) where
  enclosing := h.enclosing
  bound := h.bound
  size := (size_define _ _ _ _).trans h.size
  size_wrapped := (size_define _ _ _ _).trans h.size_wrapped
  older j hj := by
    simp only [Store.define, Array.getElem?_modify, h.older j hj]
    have hiff : shift k i = j ↔ i = j := by
      unfold shift
      split <;> omega
    simp only [hiff]
  extra := by
    have hne : shift k i ≠ k := by
      unfold shift
      split <;> omega
    rw [Store.define, Array.getElem?_modify, if_neg hne, h.extra]
  newer j hj := by
    simp only [Store.define, Array.getElem?_modify, h.newer j hj]
    have hiff : shift k i = j + 1 ↔ i = j := by
      unfold shift
      split <;> omega
    simp only [hiff]
    split
    · rw [Option.map_map, Option.map_map]
      rfl
    · rfl
  inside j s hj hs := by
    rw [Store.define, Array.getElem?_modify] at hs
    split at hs
    · obtain ⟨t, ht, rfl⟩ := Option.map_eq_some_iff.mp hs
      exact h.inside j t hj ht
    · exact h.inside j s hj hs

theorem push (h : st.Wraps k p n w) {c : Nat} (hc : Inside k p c) :
    (st.push (some c)).Wraps k p (n + 1) (w.push (some (relink k p c))) where
  enclosing := h.enclosing
  bound := Nat.le_succ_of_le h.bound
  size := by rw [size_push, h.size]
  size_wrapped := by rw [size_push, h.size_wrapped]
  older i hi := by
    have hsize : i < st.size := by have := h.bound; have := h.size; omega
    have hwide : i < w.size := by have := h.bound; have := h.size_wrapped; omega
    rw [scopes_push_of_lt hsize, scopes_push_of_lt hwide, h.older i hi]
  extra := by
    have hwide : k < w.size := by have := h.bound; have := h.size_wrapped; omega
    rw [scopes_push_of_lt hwide, h.extra]
  newer i hi := by
    have hsize : st.scopes.size = n := h.size
    have hwide : w.scopes.size = n + 1 := h.size_wrapped
    simp only [Store.push, Array.getElem?_push, hsize, hwide, Nat.add_right_cancel_iff]
    split
    · rfl
    · exact h.newer i hi
  inside i s hi hs := by
    rw [Store.push, Array.getElem?_push] at hs
    split at hs
    · cases hs
      exact ⟨c, rfl, hc⟩
    · exact h.inside i s hi hs

theorem pop (h : st.Wraps k p (n + 1) w) (hk : k ≤ n) : st.pop.Wraps k p n w.pop := by
  have hsize : st.scopes.size = n + 1 := h.size
  have hwide : w.scopes.size = n + 2 := h.size_wrapped
  refine ⟨h.enclosing, hk, by rw [size_pop, h.size]; rfl, by rw [size_pop, h.size_wrapped]; rfl, ?_, ?_, ?_, ?_⟩
  · intro i hi
    rw [scopes_pop_of_lt (by rw [h.size_wrapped]; omega), scopes_pop_of_lt (by rw [h.size]; omega)]
    exact h.older i hi
  · rw [scopes_pop_of_lt (by rw [h.size_wrapped]; omega)]
    exact h.extra
  · intro i hi
    have hiff : i + 1 < n + 2 - 1 ↔ i < n + 1 - 1 := by omega
    simp only [Store.pop, Array.getElem?_pop, hsize, hwide, hiff]
    split
    · exact h.newer i hi
    · rfl
  · intro i s hi hs
    rw [Store.pop, Array.getElem?_pop] at hs
    split at hs
    · exact h.inside i s hi hs
    · cases hs

theorem opened (hp : p < st.size) : st.Wraps st.size p st.size (st.push (some p)) where
  enclosing := hp
  bound := Nat.le_refl _
  size := rfl
  size_wrapped := size_push _ _
  older i hi := scopes_push_of_lt hi _
  extra := Array.getElem?_push_size
  newer i hi := by
    have hnone : st.scopes[i]? = none := Array.getElem?_eq_none hi
    rw [Array.getElem?_eq_none (by rw [Store.push, Array.size_push]; exact Nat.succ_le_succ hi), hnone]
    rfl
  inside i s hi hs := by
    rw [Array.getElem?_eq_none hi] at hs
    cases hs

/-- Once all later scopes are closed, closing the extra one leaves no trace. -/
theorem closed (h : st.Wraps k p k w) : w.pop = st := by
  have hsize : st.scopes.size = k := h.size
  have hwide : w.scopes.size = k + 1 := h.size_wrapped
  suffices heq : w.scopes.pop = st.scopes by rw [Store.pop, heq]
  refine Array.ext_getElem? fun i => ?_
  rw [Array.getElem?_pop, hwide]
  split
  · exact h.older i (by omega)
  · exact (Array.getElem?_eq_none (by omega)).symm

end Wraps

end Store

/-- On a store and the store with the extra scope, the two do the same. -/
def Eval.Lockstep {α : Type} (k p : Nat) (x y : Eval α) : Prop :=
  ∀ n st w, st.Wraps k p n w → (y w).1 = (x st).1 ∧ (x st).2.Wraps k p n (y w).2

namespace Eval.Lockstep

variable {α β : Type}

theorem of_result (r : Except RuntimeError α) : Lockstep k p (ofExcept r) (ofExcept r) :=
  fun _ _ _ h => ⟨rfl, h⟩

theorem bind {x y : Eval α} {f g : α → Eval β} (h : Lockstep k p x y)
    (hf : ∀ a, Lockstep k p (f a) (g a)) : Lockstep k p (x >>= f) (y >>= g) := by
  intro n st w hw
  obtain ⟨hr, hafter⟩ := h n st w hw
  rw [bind_apply, bind_apply]
  rcases hx : x st with ⟨_ | a, st'⟩ <;> rcases hy : y w with ⟨_ | b, w'⟩ <;> rw [hx, hy] at hr hafter <;>
    cases hr
  · exact ⟨rfl, hafter⟩
  · exact hf a n st' w' hafter

theorem get {c : Nat} (hc : Inside k p c) (name : Token) :
    Lockstep k p (Eval.get c name) (Eval.get (relink k p c) name) := by
  intro n st w h
  have hlookup : w.lookup (relink k p c) name.lexeme = st.lookup c name.lexeme := by
    rw [Store.lookup, Store.lookup, h.resolve hc]
    cases st.resolve c name.lexeme with
    | none => rfl
    | some i => exact h.binding_shift i name.lexeme
  refine ⟨?_, h⟩
  simp only [Eval.get, Store.get, hlookup]

theorem assign {c : Nat} (hc : Inside k p c) (name : Token) (value : Value) :
    Lockstep k p (Eval.assign c name value) (Eval.assign (relink k p c) name value) := by
  intro n st w h
  rw [Eval.assign_apply, Eval.assign_apply, h.resolve hc]
  cases st.resolve c name.lexeme with
  | none => exact ⟨rfl, h⟩
  | some i => exact ⟨rfl, h.define i name.lexeme value⟩

end Eval.Lockstep

theorem Expr.eval_lockstep {c : Nat} (hc : Inside k p c) (e : Expr) :
    Eval.Lockstep k p (e.eval c) (e.eval (relink k p c)) := by
  induction e with
  | literal value => exact .of_result (.ok value)
  | var name => exact .get hc name
  | grouping inner ih => exact ih
  | assign name value ih => exact .bind ih fun v => .assign hc name v
  | unary op operand ih => exact .bind ih fun v => .of_result _
  | binary op left right ihl ihr => exact .bind ihl fun l => .bind ihr fun r => .of_result _
  | logical op left right ihl ihr =>
    refine .bind ihl fun l => ?_
    split
    · exact .of_result (.ok l)
    · exact ihr

structure Machine.Wraps (k p c n : Nat) (m w : Machine) : Prop where
  store : m.store.Wraps k p n w.store
  current : m.current = c
  relinked : w.current = relink k p c
  out : w.out = m.out

/-- From a machine and the machine with the extra scope, the two come to the same end. -/
def Exec.Lockstep {α : Type} (k p c : Nat) (x y : Exec α) : Prop :=
  ∀ n m w, m.Wraps k p c n w →
    Option.Rel (fun a b => b.1 = a.1 ∧ a.2.Wraps k p c n b.2) (x m) (y w)

namespace Exec.Lockstep

variable {α β : Type} {c : Nat}

theorem outOfSteps : Lockstep k p c (Exec.outOfSteps : Exec α) Exec.outOfSteps := fun _ _ _ _ => .none

theorem pure (a : α) : Lockstep k p c (Pure.pure a : Exec α) (Pure.pure a) :=
  fun _ _ _ h => .some ⟨rfl, h⟩

theorem bind {x y : Exec α} {f g : α → Exec β} (h : Lockstep k p c x y)
    (hf : ∀ a, Lockstep k p c (f a) (g a)) : Lockstep k p c (x >>= f) (y >>= g) := by
  intro n m w hw
  have hxy := h n m w hw
  rw [bind_apply, bind_apply]
  generalize x m = a at hxy ⊢
  generalize y w = b at hxy ⊢
  cases hxy with
  | none => exact .none
  | @some a b hab =>
    obtain ⟨r, m'⟩ := a
    obtain ⟨r', w'⟩ := b
    obtain ⟨hr, hafter⟩ := hab
    cases hr
    cases r with
    | error err => exact .some ⟨rfl, hafter⟩
    | ok a => exact hf a n m' w' hafter

theorem eval (hc : Inside k p c) (e : Expr) : Lockstep k p c (Exec.eval e) (Exec.eval e) := by
  intro n m w h
  obtain ⟨hr, hstore⟩ := e.eval_lockstep hc n m.store w.store h.store
  rw [← h.relinked, ← h.current] at hr hstore
  exact .some ⟨hr, hstore, h.current, h.relinked, h.out⟩

theorem print (value : Value) : Lockstep k p c (Exec.print value) (Exec.print value) := by
  intro n m w h
  rw [Exec.print, Exec.print, h.out]
  split
  · exact .some ⟨rfl, h.store, h.current, h.relinked, rfl⟩
  · exact .some ⟨rfl, h.store, h.current, h.relinked, rfl⟩

theorem define (hc : k ≤ c) (name : String) (value : Value) :
    Lockstep k p c (Exec.define name value) (Exec.define name value) := by
  intro n m w h
  -- In the place of scope `p` itself there would be a binding in the extra scope.
  have hplace : w.current = shift k m.current := by
    rw [h.relinked, h.current, relink_of_le h.store.enclosing hc, shift_of_le hc]
  refine .some ⟨rfl, ?_, h.current, h.relinked, h.out⟩
  rw [hplace]
  exact h.store.define m.current name value

theorem inNewScope (hc : Inside k p c) {x y : Exec α} (h : ∀ inner, k ≤ inner → Lockstep k p inner x y) :
    Lockstep k p c (Exec.inNewScope x) (Exec.inNewScope y) := by
  intro n m w hw
  have hsize : m.store.size = n := hw.store.size
  have hinner : w.store.size = relink k p n := by
    rw [hw.store.size_wrapped, relink_of_le hw.store.enclosing hw.store.bound]
  have hpushed : (m.store.push (some m.current)).Wraps k p (n + 1) (w.store.push (some w.current)) := by
    rw [hw.relinked, hw.current]
    exact hw.store.push hc
  have hxy := h n hw.store.bound (n + 1)
    { m with store := m.store.push (some m.current), current := m.store.size }
    { w with store := w.store.push (some w.current), current := w.store.size }
    ⟨hpushed, hsize, hinner, hw.out⟩
  simp only [Exec.inNewScope, Exec.inScope, Option.map_map]
  generalize x _ = a at hxy ⊢
  generalize y _ = b at hxy ⊢
  cases hxy with
  | none => exact .none
  | some hab =>
    obtain ⟨hr, hafter⟩ := hab
    exact .some ⟨hr, hafter.store.pop hw.store.bound, hw.current, hw.relinked, hafter.out⟩

theorem forM {f : Stmt → Exec Unit} {body : List Stmt} (h : ∀ s ∈ body, Lockstep k p c (f s) (f s)) :
    Lockstep k p c (body.forM f) (body.forM f) := by
  induction body with
  | nil => exact pure ()
  | cons s rest ih =>
    obtain ⟨hs, hrest⟩ := List.forall_mem_cons.mp h
    exact bind hs fun _ => ih hrest

end Exec.Lockstep

theorem Stmt.exec_lockstep (steps : Nat) {c : Nat} (hc : Inside k p c) {s : Stmt}
    (hd : k ≤ c ∨ s.declared = []) : Exec.Lockstep k p c (s.exec steps) (s.exec steps) := by
  induction steps generalizing s c with
  | zero => exact .outOfSteps
  | succ steps ih =>
    cases s with
    | print value => exact .bind (.eval hc value) fun v => .print v
    | expression value => exact .bind (.eval hc value) fun _ => .pure ()
    | declare name initial =>
      have hk : k ≤ c := hd.resolve_right (List.cons_ne_nil _ _)
      cases initial with
      | none => exact .define hk name.lexeme .nil
      | some e => exact .bind (.eval hc e) fun v => .define hk name.lexeme v
    | block body =>
      exact .inNewScope hc fun inner hinner => .forM fun s _ => ih (.inr hinner) (.inl hinner)
    | ifThen condition body =>
      refine .bind (.eval hc condition) fun v => ?_
      split
      · exact ih hc hd
      · exact .pure ()
    | ifElse condition body otherwise =>
      refine .bind (.eval hc condition) fun v => ?_
      split
      · exact ih hc (hd.imp_right fun h => (List.append_eq_nil_iff.mp h).1)
      · exact ih hc (hd.imp_right fun h => (List.append_eq_nil_iff.mp h).2)
    | loop condition body =>
      refine .bind (.eval hc condition) fun v => ?_
      split
      · exact .bind (ih hc hd) fun _ => ih hc hd
      · exact .pure ()

theorem Machine.Wraps.opened {m : Machine} (hm : m.current < m.store.size) :
    m.Wraps m.store.size m.current m.current m.store.size
      { m with store := m.store.push (some m.current), current := m.store.size } :=
  ⟨.opened hm, rfl, (relink_self _ _).symm, rfl⟩

theorem Machine.Wraps.closed {m w : Machine} (h : m.Wraps k p p k w) :
    { w with store := w.store.pop, current := p } = m := by
  rw [h.store.closed, h.out, ← h.current]

namespace Exec.Lockstep

/-- Where nothing is declared, a scope of its own makes no difference. -/
theorem inNewScope_eq {x : Exec Unit} (hx : ∀ k p, Lockstep k p p x x) {m : Machine}
    (hm : m.current < m.store.size) : Exec.inNewScope x m = x m := by
  have hxy := hx _ _ _ _ _ (Machine.Wraps.opened hm)
  simp only [Exec.inNewScope, Exec.inScope, Option.map_map]
  generalize x m = a at hxy ⊢
  generalize x _ = b at hxy ⊢
  cases hxy with
  | none => rfl
  | @some a b hab =>
    obtain ⟨r, m'⟩ := a
    obtain ⟨r', w'⟩ := b
    obtain ⟨hr, hafter⟩ := hab
    cases hr
    exact congrArg (fun after => some (r, after)) hafter.closed

theorem unbound {x : Exec Unit} (hx : ∀ k p, Lockstep k p p x x) {m after : Machine}
    (hm : m.current < m.store.size) {r : Except RuntimeError Unit}
    (h : x { m with store := m.store.push (some m.current), current := m.store.size } = some (r, after)) :
    after.store.scopes[m.store.size]? = some { parent := some m.current } := by
  have hxy := hx _ _ _ _ _ (Machine.Wraps.opened hm)
  rw [h] at hxy
  generalize x m = a at hxy
  cases hxy with
  | some hab => exact hab.2.store.extra

end Exec.Lockstep

end Lox
