import Lox.Proofs.Appending
import Lox.Proofs.Coherence

/-!
What a statement may touch.  However it ends, it takes no binding away; it adds bindings only to the current
scope and only of names it declares outside of its blocks; and it changes bindings only of names it declares
so, or assigns to, on the way outward from the current scope.
-/

set_option autoImplicit false

namespace Lox

def Expr.targets : Expr → List String
  | .literal _ | .var _ => []
  | .assign name value => name.lexeme :: value.targets
  | .unary _ operand => operand.targets
  | .binary _ left right | .logical _ left right => left.targets ++ right.targets
  | .grouping inner => inner.targets

mutual

def Stmt.targets : Stmt → List String
  | .print value | .expression value => value.targets
  | .declare _ none => []
  | .declare _ (some initial) => initial.targets
  | .block body => Stmt.targetsIn body
  | .ifThen condition body | .loop condition body => condition.targets ++ body.targets
  | .ifElse condition body otherwise => condition.targets ++ body.targets ++ otherwise.targets

def Stmt.targetsIn : List Stmt → List String
  | [] => []
  | s :: rest => s.targets ++ Stmt.targetsIn rest

end

/-- The names that the statement declares outside of its blocks. -/
def Stmt.declared : Stmt → List String
  | .declare name _ => [name.lexeme]
  | .ifThen _ body | .loop _ body => body.declared
  | .ifElse _ body otherwise => body.declared ++ otherwise.declared
  | .print _ | .expression _ | .block _ => []

theorem Stmt.targets_subset_targetsIn {s : Stmt} {body : List Stmt} (h : s ∈ body) :
    s.targets ⊆ Stmt.targetsIn body := by
  induction h with
  | head rest => exact List.subset_append_left s.targets (Stmt.targetsIn rest)
  | tail t _ ih => exact fun x hx => List.mem_append_right t.targets (ih hx)

/-- A store after statements were executed in scope `c`, from which the path leads outward: every binding
is as before, or was there and on the path and has been assigned to, or has been declared in `c`. -/
structure Store.Touched (st : Store) (c : Nat) (path : List Nat) (declared targets : List String)
    (st' : Store) : Prop where
  links : st'.links = st.links
  reachable : st.Reachable → st'.Reachable
  binding : ∀ k x, st'.binding k x = st.binding k x ∨
    (k ∈ path ∧ x ∈ targets ∧ st.binds k x = true ∧ st'.binds k x = true) ∨
    (k = c ∧ x ∈ declared ∧ st'.binds k x = true)
  off : ∀ k, k ∉ path → st'.scopes[k]? = st.scopes[k]?

variable {st mid st' : Store} {c : Nat} {path : List Nat} {declared targets : List String}

namespace Store.Touched

theorem refl (st : Store) (c : Nat) (path : List Nat) (declared targets : List String) :
    st.Touched c path declared targets st :=
  ⟨rfl, id, fun _ _ => .inl rfl, fun _ _ => rfl⟩

theorem trans (h : st.Touched c path declared targets mid) (h' : mid.Touched c path declared targets st') :
    st.Touched c path declared targets st' := by
  refine ⟨h'.links.trans h.links, fun hr => h'.reachable (h.reachable hr), ?_,
    fun k hk => (h'.off k hk).trans (h.off k hk)⟩
  intro k x
  rcases h'.binding k x with heq' | ⟨hk, hx, hmid, hafter⟩ | hdeclared
  · rw [heq', binds_congr heq']
    exact h.binding k x
  · rcases h.binding k x with heq | ⟨-, -, hbefore, -⟩ | ⟨hk, hx, -⟩
    · exact .inr (.inl ⟨hk, hx, binds_congr heq ▸ hmid, hafter⟩)
    · exact .inr (.inl ⟨hk, hx, hbefore, hafter⟩)
    · exact .inr (.inr ⟨hk, hx, hafter⟩)
  · exact .inr (.inr hdeclared)

theorem kept (h : st.Touched c path declared targets st') {k : Nat} {x : String}
    (hb : st.binds k x = true) : st'.binds k x = true := by
  rcases h.binding k x with heq | ⟨-, -, -, hafter⟩ | ⟨-, -, hafter⟩
  · rwa [binds_congr heq]
  · exact hafter
  · exact hafter

theorem gained (h : st.Touched c path declared targets st') {k : Nat} {x : String}
    (hb : st'.binds k x = true) : st.binds k x = true ∨ k = c ∧ x ∈ declared := by
  rcases h.binding k x with heq | ⟨-, -, hbefore, -⟩ | ⟨hk, hx, -⟩
  · exact .inl (by rwa [← binds_congr heq])
  · exact .inl hbefore
  · exact .inr ⟨hk, hx⟩

theorem changed (h : st.Touched c path declared targets st') {k : Nat} {x : String} {v : Value}
    (hv : st.binding k x = some v) :
    st'.binding k x = some v ∨ (k ∈ path ∧ x ∈ targets) ∨ (k = c ∧ x ∈ declared) := by
  rcases h.binding k x with heq | ⟨hk, hx, -, -⟩ | ⟨hk, hx, -⟩
  · exact .inl (heq.trans hv)
  · exact .inr (.inl ⟨hk, hx⟩)
  · exact .inr (.inr ⟨hk, hx⟩)

theorem define (hc : Chain st.links c path) {x : String} (hx : x ∈ declared) (value : Value) :
    st.Touched c path declared targets (st.define c x value) := by
  have hsize : c < st.size := st.size_links ▸ hc.lt_size hc.head_mem
  refine ⟨st.links_define c x value, fun hr => hr.define c x value, ?_, ?_⟩
  · intro k y
    rcases binding_define_cases hsize x value k y with heq | ⟨rfl, rfl, hbinds⟩
    · exact .inl heq
    · exact .inr (.inr ⟨rfl, hx, hbinds⟩)
  · intro k hk
    have hne : k ≠ c := by
      rintro rfl
      exact hk hc.head_mem
    exact scopes_define_of_ne hne x value

theorem assign (hc : Chain st.links c path) {name : Token} (hx : name.lexeme ∈ targets) (value : Value) :
    st.Touched c path declared targets (Eval.assign c name value st).2 := by
  cases hr : st.resolve c name.lexeme with
  | none =>
    rw [Eval.assign_apply, hr]
    exact refl st c path declared targets
  | some i =>
    have hmem : i ∈ path := mem_of_resolve hc hr
    have hsize : i < st.size := st.size_links ▸ hc.lt_size hmem
    rw [Eval.assign_apply, hr]
    refine ⟨st.links_define i _ value, fun hst => hst.define i _ value, ?_, ?_⟩
    · intro k y
      rcases binding_define_cases hsize name.lexeme value k y with heq | ⟨rfl, rfl, hbinds⟩
      · exact .inl heq
      · exact .inr (.inl ⟨hmem, hx, binds_of_resolve hr, hbinds⟩)
    · intro k hk
      have hne : k ≠ i := by
        rintro rfl
        exact hk hmem
      exact scopes_define_of_ne hne name.lexeme value

theorem pop {inner : List String} (hc : Chain st.links c path)
    (h : (st.push (some c)).Touched st.size (st.size :: path) inner targets st') :
    st.Touched c path declared targets st'.pop := by
  have hsize : st'.size = st.size + 1 := by
    rw [← size_links, h.links, size_links, size_push]
  have hlt : c < st.size := st.size_links ▸ hc.lt_size hc.head_mem
  have hbeyond : ∀ k, st.size ≤ k → st'.pop.scopes[k]? = st.scopes[k]? := by
    intro k hk
    have hpop : st'.pop.size ≤ k := by
      rw [size_pop]
      omega
    exact (Array.getElem?_eq_none hpop).trans (Array.getElem?_eq_none hk).symm
  refine ⟨?_, ?_, ?_, ?_⟩
  · rw [links_pop, h.links, links_push, Array.pop_push]
  · intro hr
    exact (h.reachable (hr.push (some c) fun p hp => Option.some.inj hp ▸ hlt)).pop
  · intro k x
    by_cases hk : k < st.size
    · have hbefore : (st.push (some c)).binding k x = st.binding k x :=
        binding_congr (scopes_push_of_lt hk (some c)) x
      have hafter : st'.pop.binding k x = st'.binding k x :=
        binding_congr (scopes_pop_of_lt (by omega)) x
      rcases h.binding k x with heq | ⟨hmem, hx, hold, hnew⟩ | ⟨hnew, -, -⟩
      · exact .inl (hafter.trans (heq.trans hbefore))
      · have hpath : k ∈ path := (List.mem_cons.mp hmem).resolve_left (by omega)
        exact .inr (.inl ⟨hpath, hx, binds_congr hbefore ▸ hold, binds_congr hafter ▸ hnew⟩)
      · omega
    · exact .inl (binding_congr (hbeyond k (Nat.le_of_not_lt hk)) x)
  · intro k hk
    by_cases hlt' : k < st.size
    · have hnot : k ∉ st.size :: path := by
        rw [List.mem_cons, not_or]
        exact ⟨by omega, hk⟩
      rw [scopes_pop_of_lt (by omega), h.off k hnot, scopes_push_of_lt hlt']
    · exact hbeyond k (Nat.le_of_not_lt hlt')

end Store.Touched

def Eval.Touches {α : Type} (c : Nat) (targets : List String) (x : Eval α) : Prop :=
  ∀ (st : Store) path, Chain st.links c path → st.Touched c path [] targets (x st).2

namespace Eval.Touches

variable {α β : Type}

theorem of_store_eq {x : Eval α} (h : ∀ st, (x st).2 = st) : x.Touches c targets := by
  intro st path _
  rw [h]
  exact .refl st c path [] targets

theorem bind {x : Eval α} {f : α → Eval β} (hx : x.Touches c targets)
    (hf : ∀ a, (f a).Touches c targets) : (x >>= f).Touches c targets := by
  intro st path hc
  have hfirst := hx st path hc
  rw [Eval.bind_apply]
  rcases hr : x st with ⟨_ | a, mid⟩ <;> rw [hr] at hfirst
  · exact hfirst
  · exact hfirst.trans (hf a mid path (hfirst.links ▸ hc))

end Eval.Touches

theorem Expr.eval_touches {e : Expr} (h : e.targets ⊆ targets) (c : Nat) :
    (e.eval c).Touches c targets := by
  induction e with
  | literal value => exact .of_store_eq fun _ => rfl
  | var name => exact .of_store_eq fun _ => rfl
  | assign name value ih =>
    obtain ⟨hname, hvalue⟩ := List.cons_subset.mp h
    exact (ih hvalue).bind fun v st path hc => .assign hc hname v
  | unary op operand ih => exact (ih h).bind fun v => .of_store_eq fun _ => rfl
  | binary op left right ihl ihr =>
    obtain ⟨hleft, hright⟩ := List.append_subset.mp h
    exact (ihl hleft).bind fun l => (ihr hright).bind fun r => .of_store_eq fun _ => rfl
  | logical op left right ihl ihr =>
    obtain ⟨hleft, hright⟩ := List.append_subset.mp h
    refine (ihl hleft).bind fun l => ?_
    split
    · exact .of_store_eq fun _ => rfl
    · exact ihr hright
  | grouping inner ih => exact ih h

/-- Executing touches, in the current scope, bindings of the declared names and, from there outward, those
of the targets. -/
def Exec.Touches {α : Type} (declared targets : List String) (x : Exec α) : Prop :=
  ∀ m path r m', Chain m.store.links m.current path → x m = some (r, m') →
    m'.current = m.current ∧ m.store.Touched m.current path declared targets m'.store

namespace Exec.Touches

variable {α β : Type}

theorem pure (a : α) : Exec.Touches declared targets (Pure.pure a) := by
  intro m path r m' _ h
  cases h
  exact ⟨rfl, .refl _ _ _ _ _⟩

theorem bind {x : Exec α} {f : α → Exec β} (hx : x.Touches declared targets)
    (hf : ∀ a, (f a).Touches declared targets) : (x >>= f).Touches declared targets := by
  intro m path r m' hc h
  rw [Exec.bind_apply] at h
  rcases hr : x m with _ | ⟨_ | a, mid⟩
  · rw [hr] at h
    cases h
  · rw [hr] at h
    cases h
    exact hx m path _ _ hc hr
  · rw [hr] at h
    obtain ⟨hcurrent, hfirst⟩ := hx m path _ _ hc hr
    have hchain : Chain mid.store.links mid.current path := by rwa [hcurrent, hfirst.links]
    obtain ⟨hcurrent', hsecond⟩ := hf a mid path r m' hchain h
    exact ⟨hcurrent'.trans hcurrent, hfirst.trans (hcurrent ▸ hsecond)⟩

theorem eval {e : Expr} (h : e.targets ⊆ targets) : (Exec.eval e).Touches declared targets := by
  intro m path r m' hc hx
  have htouched := e.eval_touches h m.current m.store path hc
  cases hx
  refine ⟨rfl, htouched.links, htouched.reachable, ?_, htouched.off⟩
  intro k x
  rcases htouched.binding k x with heq | hassigned | ⟨-, hnone, -⟩
  · exact .inl heq
  · exact .inr (.inl hassigned)
  · cases hnone

theorem print (value : Value) : (Exec.print value).Touches declared targets := by
  intro m path r m' _ h
  unfold Exec.print at h
  split at h <;> cases h <;> exact ⟨rfl, .refl _ _ _ _ _⟩

theorem define {name : String} (h : name ∈ declared) (value : Value) :
    (Exec.define name value).Touches declared targets := by
  intro m path r m' hc hx
  cases hx
  exact ⟨rfl, .define hc h value⟩

/-- A block touches nothing but targets: what is declared in it goes with its scope. -/
theorem inNewScope {x : Exec α} {inner : List String} (hx : x.Touches inner targets) :
    (Exec.inNewScope x).Touches declared targets := by
  intro m path r m' hc h
  obtain ⟨⟨_, after⟩, hscope, heq⟩ := Option.map_eq_some_iff.mp h
  cases heq
  obtain ⟨⟨_, ended⟩, hbody, heq⟩ := Option.map_eq_some_iff.mp hscope
  cases heq
  have hchain : Chain (m.store.push (some m.current)).links m.store.size (m.store.size :: path) := by
    rw [Store.links_push]
    exact .link (by rw [← Store.size_links, Array.getElem?_push_size]) (hc.push _)
  obtain ⟨-, htouched⟩ := hx _ _ _ _ hchain hbody
  exact ⟨rfl, htouched.pop hc⟩

theorem forM {f : Stmt → Exec Unit} {body : List Stmt} (h : ∀ s ∈ body, (f s).Touches declared targets) :
    (body.forM f).Touches declared targets := by
  induction body with
  | nil => exact pure ()
  | cons s rest ih =>
    exact bind (h s List.mem_cons_self) fun _ => ih fun t ht => h t (List.mem_cons_of_mem s ht)

end Exec.Touches

theorem Stmt.exec_touches (steps : Nat) {s : Stmt} {declared targets : List String}
    (hd : s.declared ⊆ declared) (ht : s.targets ⊆ targets) :
    (s.exec steps).Touches declared targets := by
  induction steps generalizing s declared with
  | zero =>
    intro m path r m' _ h
    cases h
  | succ steps ih =>
    cases s with
    | print value => exact .bind (.eval ht) fun v => .print v
    | expression value => exact .bind (.eval ht) fun _ => .pure ()
    | declare name initial =>
      have hname : name.lexeme ∈ declared := hd List.mem_cons_self
      cases initial with
      | none => exact .define hname .nil
      | some e => exact .bind (.eval ht) fun v => .define hname v
    | block body =>
      have hbody : ∀ t ∈ body, (t.exec steps).Touches (body.flatMap Stmt.declared) targets := by
        intro t hmem
        have hnames : t.declared ⊆ body.flatMap Stmt.declared :=
          fun x hx => List.mem_flatMap.mpr ⟨t, hmem, hx⟩
        exact ih hnames fun x hx => ht (Stmt.targets_subset_targetsIn hmem hx)
      exact (Exec.Touches.forM hbody).inNewScope
    | ifThen condition body =>
      obtain ⟨hcondition, hbody⟩ := List.append_subset.mp ht
      refine .bind (.eval hcondition) fun v => ?_
      split
      · exact ih hd hbody
      · exact .pure ()
    | ifElse condition body otherwise =>
      obtain ⟨hfirst, hotherwise⟩ := List.append_subset.mp ht
      obtain ⟨hcondition, hbody⟩ := List.append_subset.mp hfirst
      obtain ⟨hd, hd'⟩ := List.append_subset.mp hd
      refine .bind (.eval hcondition) fun v => ?_
      split
      · exact ih hd hbody
      · exact ih hd' hotherwise
    | loop condition body =>
      obtain ⟨hcondition, hbody⟩ := List.append_subset.mp ht
      refine .bind (.eval hcondition) fun v => ?_
      split
      · exact .bind (ih hd hbody) fun _ => ih hd ht
      · exact .pure ()

/-- However a statement ends, no binding is gone; new bindings are of declared names in the current scope;
a binding has another value only if it is declared there, or is on the way outward and assigned to; scopes
that are not on the way are as they were; and output has only been added.  An expression adds no binding
and writes nothing. -/
theorem exec_footprint {m : Machine} (hm : m.store.Reachable) (hc : m.current < m.store.size) :
    (∃ path, Chain m.store.links m.current path) ∧
      (∀ path steps s r m', Chain m.store.links m.current path → Stmt.exec steps s m = some (r, m') →
        (∀ k x, m.store.binds k x = true → m'.store.binds k x = true) ∧
        (∀ k x, m'.store.binds k x = true →
          m.store.binds k x = true ∨ k = m.current ∧ x ∈ s.declared) ∧
        (∀ k x v, m.store.binding k x = some v → m'.store.binding k x = some v ∨
          (k ∈ path ∧ x ∈ s.targets) ∨ (k = m.current ∧ x ∈ s.declared)) ∧
        (∀ k, k ∉ path → m'.store.scopes[k]? = m.store.scopes[k]?) ∧
        (∃ data, m'.out.written = m.out.written ++ data) ∧
        m'.store.links = m.store.links ∧ m'.store.Reachable) ∧
      ∀ e r m', Exec.eval e m = some (r, m') →
        (∀ k x, m'.store.binds k x = m.store.binds k x) ∧ m'.out = m.out := by
  refine ⟨hm.exists_chain hc, ?_, ?_⟩
  · intro path steps s r m' hpath h
    obtain ⟨-, htouched⟩ := s.exec_touches steps (fun _ h => h) (fun _ h => h) m path r m' hpath h
    exact ⟨fun _ _ => htouched.kept, fun _ _ => htouched.gained, fun _ _ _ => htouched.changed, htouched.off,
      (Exec.Appends.hereditary.exec steps s).exists_written h, htouched.links, htouched.reachable hm⟩
  · intro e r m' h
    obtain ⟨path, hpath⟩ := hm.exists_chain hc
    have htouched := e.eval_touches (fun _ h => h) m.current m.store path hpath
    cases h
    refine ⟨?_, rfl⟩
    intro k x
    rcases htouched.binding k x with heq | ⟨-, -, hbefore, hafter⟩ | ⟨-, hnone, -⟩
    · exact Store.binds_congr heq
    · rw [hbefore]
      exact hafter
    · cases hnone

theorem exec_footprint_failing_block :
    let token (name : String) : Token := ⟨.identifier, name, 1, none⟩
    let m : Machine := ⟨⟨#[⟨[("b", .nil), ("a", .nil)], none⟩, ⟨[], some 0⟩, ⟨[("a", .boolean true)], some 0⟩]⟩,
      1, {}⟩
    let s := Stmt.block [.declare (token "d") none, .expression (.assign (token "a") (.literal (.boolean true))),
      .expression (.assign (token "missing") (.literal .nil))]
    m.store.Reachable ∧ m.current < m.store.size ∧ Chain m.store.links m.current [1, 0] ∧
      ∃ m', s.exec 2 m = some (.error (.undefinedVariable (token "missing")), m') ∧
        m'.store.binds 1 "d" = false ∧ m'.store.binding 0 "b" = some .nil ∧
        m'.store.binds 0 "a" = true ∧ m'.store.scopes[2]? = m.store.scopes[2]? := by
  intro token m s
  have hm : m.store.Reachable := by
    have hzero := (Store.Reachable.empty.push none (by simp)).define 0 "a" .nil
    have hone := (hzero.define 0 "b" .nil).push (some 0) (by simp)
    exact (hone.push (some 0) (by simp)).define 2 "a" (.boolean true)
  have hc : m.current < m.store.size := by decide
  have hlinks : m.store.links = #[none, some 0, some 0] := by simp [Store.links, m]
  have hpath : Chain m.store.links m.current [1, 0] := hlinks ▸ .link rfl (.outermost rfl)
  obtain ⟨m', hrun⟩ : ∃ m', s.exec 2 m = some (.error (.undefinedVariable (token "missing")), m') :=
    ⟨_, by with_unfolding_all rfl⟩
  obtain ⟨hkept, hgained, hchanged, hoff, -⟩ := (exec_footprint hm hc).2.1 _ 2 s _ m' hpath hrun
  refine ⟨hm, hc, hpath, m', hrun, ?_, ?_, hkept 0 "a" rfl, hoff 2 (by decide)⟩
  · refine Bool.eq_false_iff.mpr fun hd => ?_
    rcases hgained 1 "d" hd with hold | ⟨-, hdeclared⟩
    · exact absurd hold (by decide)
    · exact absurd hdeclared (by decide)
  · rcases hchanged 0 "b" .nil rfl with hsame | ⟨-, htarget⟩ | ⟨-, hdeclared⟩
    · exact hsame
    · exact absurd htarget (by decide)
    · exact absurd hdeclared (by decide)

end Lox
