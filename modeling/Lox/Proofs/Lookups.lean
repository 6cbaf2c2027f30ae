import Mathlib
import Lox.Proofs.Footprint
import Lox.Proofs.Truncation

set_option autoImplicit false

namespace Lox

/-- A name that is looked up, with the scope and the store at that moment. -/
structure Lookup where
  name : Token
  scope : Nat
  store : Store

def Lookup.found (l : Lookup) : Bool := (l.store.resolve l.scope l.name.lexeme).isSome

variable {α β γ : Type}

def Eval.onward (x : Eval α) (st : Store) (f : α → Store → List γ) : List γ :=
  match x st with
  | (.ok a, after) => f a after
  | _ => []

theorem Eval.onward_nil (x : Eval α) (st : Store) : (x.onward st fun _ _ => ([] : List γ)) = [] := by
  unfold onward
  split <;> rfl

/-- All names that evaluating an expression looks up, in order.  To assign is to look up as well, once the
value is there. -/
def Expr.lookups (scope : Nat) : Expr → Store → List Lookup
  | .literal _, _ => []
  | .var name, st => [⟨name, scope, st⟩]
  | .assign name value, st =>
    value.lookups scope st ++ (value.eval scope).onward st fun _ st => [⟨name, scope, st⟩]
  | .unary _ operand, st => operand.lookups scope st
  | .binary _ left right, st =>
    left.lookups scope st ++ (left.eval scope).onward st fun _ st => right.lookups scope st
  | .logical op left right, st =>
    left.lookups scope st ++ (left.eval scope).onward st fun l st =>
      if l.truthy = decide (op.kind = .kwOr) then [] else right.lookups scope st
  | .grouping inner, st => inner.lookups scope st

def Exec.lookups (e : Expr) (m : Machine) : List Lookup := e.lookups m.current m.store

/-- All names that executing a statement looks up, in order. -/
def Stmt.lookups : Nat → Stmt → Machine → List Lookup
  | 0, _, _ => []
  | _ + 1, .print value, m => Exec.lookups value m
  | _ + 1, .expression value, m => Exec.lookups value m
  | _ + 1, .declare _ none, _ => []
  | _ + 1, .declare _ (some initial), m => Exec.lookups initial m
  | steps + 1, .block body, m => inTurn (Stmt.lookups steps) (Stmt.exec steps) body m.inside
  | steps + 1, .ifThen condition body, m =>
    Exec.lookups condition m ++ (Exec.eval condition).onward m fun c m =>
      if c.truthy then body.lookups steps m else []
  | steps + 1, .ifElse condition body otherwise, m =>
    Exec.lookups condition m ++ (Exec.eval condition).onward m fun c m =>
      if c.truthy then body.lookups steps m else otherwise.lookups steps m
  | steps + 1, .loop condition body, m =>
    Exec.lookups condition m ++ (Exec.eval condition).onward m fun c m =>
      if c.truthy then
        body.lookups steps m ++ (body.exec steps).onward m fun _ m => (Stmt.loop condition body).lookups steps m
      else []

def Machine.lookups (steps : Nat) (program : List Stmt) (m : Machine) : List Lookup :=
  inTurn (Stmt.lookups steps) (Stmt.exec steps) program m

/-- The lookups account for the result: all of them are met, or only the last one is not and the result is
the error that says so. -/
inductive Accounts : List Lookup → Except RuntimeError α → Prop where
  | met {ls : List Lookup} {r : Except RuntimeError α} : (∀ l ∈ ls, l.found = true) →
      (∀ name, r ≠ .error (.undefinedVariable name)) → Accounts ls r
  | unmet {ls : List Lookup} {l : Lookup} : (∀ k ∈ ls, k.found = true) → l.found = false →
      Accounts (ls ++ [l]) (.error (.undefinedVariable l.name))

namespace Accounts

variable {ls ks : List Lookup} {r : Except RuntimeError α}

theorem nil (h : ∀ name, r ≠ .error (.undefinedVariable name)) : Accounts [] r :=
  .met (List.forall_mem_nil _) h

theorem single {l : Lookup} (hfound : l.found = true → ∀ name, r ≠ .error (.undefinedVariable name))
    (hnot : l.found = false → r = .error (.undefinedVariable l.name)) : Accounts [l] r := by
  cases hl : l.found with
  | true => exact .met (List.forall_mem_singleton.mpr hl) (hfound hl)
  | false =>
    rw [hnot hl]
    exact .unmet (List.forall_mem_nil _) hl

theorem found (h : Accounts ls r) {a : α} (hr : r = .ok a) : ∀ l ∈ ls, l.found = true := by
  cases h with
  | met hls _ => exact hls
  | unmet _ _ => cases hr

theorem error {e : RuntimeError} (h : Accounts ls r) (hr : r = .error e) :
    Accounts ls (.error e : Except RuntimeError β) := by
  cases h with
  | met hls hne =>
    refine .met hls fun name heq => hne name ?_
    cases heq
    exact hr
  | unmet hls hl =>
    cases hr
    exact .unmet hls hl

theorem prepend (hls : ∀ l ∈ ls, l.found = true) (h : Accounts ks r) : Accounts (ls ++ ks) r := by
  cases h with
  | met hks hne => exact .met (List.forall_mem_append.mpr ⟨hls, hks⟩) hne
  | unmet hks hl =>
    rw [← List.append_assoc]
    exact .unmet (List.forall_mem_append.mpr ⟨hls, hks⟩) hl

theorem exists_unmet {name : Token} (h : Accounts ls r) (hr : r = .error (.undefinedVariable name)) :
    ∃ earlier l, ls = earlier ++ [l] ∧ (∀ k ∈ earlier, k.found = true) ∧ l.found = false ∧ l.name = name := by
  cases h with
  | met _ hne => exact absurd hr (hne name)
  | unmet hls hl =>
    cases hr
    exact ⟨_, _, rfl, hls, hl, rfl⟩

end Accounts

def Store.Hosts (st : Store) (scope : Nat) : Prop := st.Reachable ∧ scope < st.size

namespace Store.Hosts

variable {st : Store} {scope : Nat}

theorem push (h : st.Hosts scope) : (st.push (some scope)).Hosts st.size := by
  refine ⟨h.1.push (some scope) fun p hp => Option.some.inj hp ▸ h.2, ?_⟩
  rw [size_push]
  exact Nat.lt_succ_self st.size

theorem touched {path : List Nat} {declared targets : List String} {after : Store} (h : st.Hosts scope)
    (ht : st.Touched scope path declared targets after) : after.Hosts scope := by
  refine ⟨ht.reachable h.1, ?_⟩
  rw [← size_links, ht.links, size_links]
  exact h.2

theorem unbound (h : st.Hosts scope) {name : String} (hn : st.resolve scope name = none) :
    ∃ path, Chain st.links scope path ∧ ∀ k ∈ path, st.binds k name = false := by
  obtain ⟨path, hpath⟩ := h.1.exists_chain h.2
  rw [h.1.resolve_eq_nearest hpath, nearest, List.find?_eq_none] at hn
  exact ⟨path, hpath, fun k hk => Bool.eq_false_iff.mpr (hn k hk)⟩

end Store.Hosts

/-- The lookups account for how the computation ends, and each is made from a scope of its store. -/
structure Eval.LooksUp (scope : Nat) (x : Eval α) (ls : Store → List Lookup) : Prop where
  accounts : ∀ st, Accounts (ls st) (x st).1
  hosts : ∀ st, st.Hosts scope → ∀ l ∈ ls st, l.store.Hosts l.scope

namespace Eval.LooksUp

variable {scope : Nat}

theorem quiet {x : Eval α} (h : ∀ st name, (x st).1 ≠ .error (.undefinedVariable name)) :
    x.LooksUp scope fun _ => [] :=
  ⟨fun st => .nil (h st), fun _ _ => List.forall_mem_nil _⟩

theorem get (name : Token) : (Eval.get scope name).LooksUp scope fun st => [⟨name, scope, st⟩] := by
  refine ⟨fun st => ?_, fun st hst => List.forall_mem_singleton.mpr hst⟩
  show Accounts [⟨name, scope, st⟩] (st.get scope name)
  rw [Store.get, Store.lookup]
  cases hk : st.resolve scope name.lexeme with
  | none => exact .single (by simp [Lookup.found, hk]) fun _ => rfl
  | some k =>
    obtain ⟨v, hv⟩ := Option.isSome_iff_exists.mp (Store.binds_of_resolve hk)
    have hvalue : st.scopes[k]?.bind (·.get? name.lexeme) = some v := hv
    rw [Option.bind_some, hvalue]
    exact .single (by simp) (by simp [Lookup.found, hk])

theorem assign (name : Token) (value : Value) :
    (Eval.assign scope name value).LooksUp scope fun st => [⟨name, scope, st⟩] := by
  refine ⟨fun st => ?_, fun st hst => List.forall_mem_singleton.mpr hst⟩
  rw [Eval.assign_apply]
  cases hk : st.resolve scope name.lexeme with
  | none => exact .single (by simp [Lookup.found, hk]) fun _ => rfl
  | some k => exact .single (by simp) (by simp [Lookup.found, hk])

theorem bind {x : Eval α} {f : α → Eval β} {ls : Store → List Lookup} {ks : α → Store → List Lookup}
    (hx : x.LooksUp scope ls) (hkept : ∀ st, st.Hosts scope → (x st).2.Hosts scope)
    (hf : ∀ a, (f a).LooksUp scope (ks a)) :
    (x >>= f).LooksUp scope fun st => ls st ++ x.onward st ks := by
  constructor
  · intro st
    have hfirst := hx.accounts st
    rw [Eval.bind_apply, Eval.onward]
    rcases hr : x st with ⟨e | a, mid⟩ <;> rw [hr] at hfirst
    -- After a failure nothing is looked up, so that the last lookup stays the last.
    · simpa using hfirst.error rfl
    · exact .prepend (hfirst.found rfl) ((hf a).accounts mid)
  · intro st hst
    have hmid := hkept st hst
    refine List.forall_mem_append.mpr ⟨hx.hosts st hst, ?_⟩
    rw [Eval.onward]
    rcases hr : x st with ⟨e | a, mid⟩
    · exact List.forall_mem_nil _
    · rw [hr] at hmid
      exact (hf a).hosts mid hmid

theorem bind_quiet {x : Eval α} {f : α → Eval β} {ls : Store → List Lookup} (hx : x.LooksUp scope ls)
    (hkept : ∀ st, st.Hosts scope → (x st).2.Hosts scope) (hf : ∀ a, (f a).LooksUp scope fun _ => []) :
    (x >>= f).LooksUp scope ls := by
  simpa only [Eval.onward_nil, List.append_nil] using bind hx hkept hf

end Eval.LooksUp

/-- The error is one that the operator itself raises: over operands that will not do, which only some
operators raise, or because there is no such operator. -/
inductive RuntimeError.Concerns (op : Token) : RuntimeError → Prop where
  | mismatch {message : String} : op.kind ∉ [.bang, .equalEqual, .bangEqual] →
      Concerns op (.typeMismatch op message)
  | invalidUnary : Concerns op (.invalidUnary op)
  | invalidBinary : Concerns op (.invalidBinary op)

theorem applyUnary_concerns {op : Token} {v : Value} {err : RuntimeError}
    (h : applyUnary op v = .error err) : err.Concerns op := by
  unfold applyUnary at h
  split at h <;> cases h
  · exact .mismatch (by simp [*])
  · exact .invalidUnary

theorem onNumbers_concerns {op : Token} {f : Float → Float → Value} {l r : Value} {err : RuntimeError}
    (hkind : op.kind ∉ [.bang, .equalEqual, .bangEqual]) (h : onNumbers op f l r = .error err) :
    err.Concerns op := by
  unfold onNumbers at h
  split at h <;> cases h
  exact .mismatch hkind

theorem applyPlus_concerns {op : Token} {l r : Value} {err : RuntimeError}
    (hkind : op.kind ∉ [.bang, .equalEqual, .bangEqual]) (h : applyPlus op l r = .error err) :
    err.Concerns op := by
  unfold applyPlus at h
  split at h <;> cases h
  exact .mismatch hkind

theorem applyBinary_concerns {op : Token} {l r : Value} {err : RuntimeError}
    (h : applyBinary op l r = .error err) : err.Concerns op := by
  unfold applyBinary at h
  split at h
  case h_1 | h_2 => cases h
  case h_3 => exact applyPlus_concerns (by simp [*]) h
  case h_11 =>
    cases h
    exact .invalidBinary
  all_goals exact onNumbers_concerns (by simp [*]) h

theorem Store.Hosts.eval {st : Store} {scope : Nat} (h : st.Hosts scope) (e : Expr) :
    (e.eval scope st).2.Hosts scope := by
  obtain ⟨path, hpath⟩ := h.1.exists_chain h.2
  exact h.touched (e.eval_touches (fun _ hx => hx) scope st path hpath)

theorem Expr.eval_looksUp (scope : Nat) (e : Expr) : (e.eval scope).LooksUp scope (e.lookups scope) := by
  have hkept : ∀ (e : Expr) st, Store.Hosts st scope → (e.eval scope st).2.Hosts scope :=
    fun e _ hst => hst.eval e
  induction e with
  | literal value => exact .quiet fun _ _ h => by cases h
  | var name => exact .get name
  | assign name value ih => exact ih.bind (hkept value) (.assign name)
  | unary op operand ih =>
    refine ih.bind_quiet (hkept operand) fun v => .quiet fun _ name h => ?_
    cases applyUnary_concerns h
  | binary op left right ihl ihr =>
    refine ihl.bind (hkept left) fun l => ?_
    refine ihr.bind_quiet (hkept right) fun r => .quiet fun _ name h => ?_
    cases applyBinary_concerns h
  | logical op left right ihl ihr =>
    refine ihl.bind (hkept left) fun l => ?_
    split
    · exact .quiet fun _ _ h => by cases h
    · exact ihr
  | grouping inner ih => exact ih

def Exec.Stays (x : Exec α) : Prop :=
  ∀ m r after, m.store.Hosts m.current → x m = some (r, after) → after.store.Hosts after.current

namespace Exec.Stays

theorem of_touches {x : Exec α} {declared targets : List String} (h : x.Touches declared targets) :
    x.Stays := by
  intro m r after hm hx
  obtain ⟨path, hpath⟩ := hm.1.exists_chain hm.2
  obtain ⟨hcurrent, htouched⟩ := h m path r after hpath hx
  rw [hcurrent]
  exact hm.touched htouched

theorem eval (e : Expr) : (Exec.eval e).Stays := by
  have htouches : (Exec.eval e).Touches [] e.targets := .eval fun _ h => h
  exact of_touches htouches

theorem exec (steps : Nat) (s : Stmt) : (s.exec steps).Stays :=
  of_touches (s.exec_touches steps (fun _ h => h) fun _ h => h)

theorem executeAll (steps : Nat) (program : List Stmt) : (Machine.executeAll steps program).Stays := by
  have hall : ∀ s ∈ program,
      (s.exec steps).Touches (program.flatMap Stmt.declared) (Stmt.targetsIn program) := by
    intro s hs
    exact s.exec_touches steps (fun x hx => List.mem_flatMap.mpr ⟨s, hs, hx⟩)
      (Stmt.targets_subset_targetsIn hs)
  exact of_touches (.forM hall)

theorem interpret (steps : Nat) (program : List Stmt) : (Machine.interpret steps program).Stays := by
  intro m r after hm h
  obtain ⟨⟨r', ended⟩, hall, heq⟩ := Option.map_eq_some_iff.mp h
  have hended := executeAll steps program m r' ended hm hall
  cases r' <;> cases heq
  -- A failure brings the machine to the outermost scope, which every store has that has any.
  · exact ⟨hended.1, Nat.zero_lt_of_lt hended.2⟩
  · exact hended

end Exec.Stays

structure Exec.LooksUp (x : Exec α) (ls : Machine → List Lookup) : Prop where
  accounts : ∀ m r after, x m = some (r, after) → Accounts (ls m) r
  hosts : ∀ m, m.store.Hosts m.current → ∀ l ∈ ls m, l.store.Hosts l.scope

namespace Exec.LooksUp

theorem quiet {x : Exec α} (h : ∀ m name after, x m ≠ some (.error (.undefinedVariable name), after)) :
    x.LooksUp fun _ => [] := by
  refine ⟨fun m r after hx => .nil fun name heq => ?_, fun _ _ => List.forall_mem_nil _⟩
  exact h m name after (heq ▸ hx)

theorem eval (e : Expr) : (Exec.eval e).LooksUp (Exec.lookups e) := by
  refine ⟨fun m r after hx => ?_, fun m => (e.eval_looksUp m.current).hosts m.store⟩
  cases hx
  exact (e.eval_looksUp m.current).accounts m.store

theorem bind {x : Exec α} {f : α → Exec β} {ls : Machine → List Lookup} {ks : α → Machine → List Lookup}
    (hx : x.LooksUp ls) (hstays : x.Stays) (hf : ∀ a, (f a).LooksUp (ks a)) :
    (x >>= f).LooksUp fun m => ls m ++ x.onward m ks := by
  constructor
  · intro m r after h
    rw [Exec.bind_apply] at h
    rcases hr : x m with _ | ⟨e | a, mid⟩ <;> rw [hr] at h
    · cases h
    · cases h
      simpa [Exec.onward_error hr] using (hx.accounts m _ _ hr).error rfl
    · simp only [Exec.onward_ok hr]
      exact .prepend ((hx.accounts m _ _ hr).found rfl) ((hf a).accounts mid r after h)
  · intro m hm
    refine List.forall_mem_append.mpr ⟨hx.hosts m hm, ?_⟩
    unfold Exec.onward
    split
    · rename_i a mid hr
      exact (hf a).hosts mid (hstays m _ mid hm hr)
    · exact List.forall_mem_nil _

theorem bind_quiet {x : Exec α} {f : α → Exec β} {ls : Machine → List Lookup} (hx : x.LooksUp ls)
    (hstays : x.Stays) (hf : ∀ a, (f a).LooksUp fun _ => []) : (x >>= f).LooksUp ls := by
  simpa only [Exec.onward_nil, List.append_nil] using bind hx hstays hf

theorem forM {f : Stmt → Exec Unit} {ls : Stmt → Machine → List Lookup} (h : ∀ s, (f s).LooksUp (ls s))
    (hstays : ∀ s, (f s).Stays) (body : List Stmt) : (body.forM f).LooksUp (inTurn ls f body) := by
  induction body with
  | nil => exact quiet fun m name after hx => by cases hx
  | cons s rest ih => exact bind (h s) (hstays s) fun _ => ih

theorem inNewScope {x : Exec α} {ls : Machine → List Lookup} (h : x.LooksUp ls) :
    (Exec.inNewScope x).LooksUp fun m => ls m.inside := by
  refine ⟨fun m r after hx => ?_, fun m hm => h.hosts m.inside hm.push⟩
  rw [Exec.inNewScope_apply] at hx
  obtain ⟨⟨_, inner⟩, hbody, heq⟩ := Option.map_eq_some_iff.mp hx
  cases heq
  exact h.accounts m.inside r inner hbody

theorem print (value : Value) : (Exec.print value).LooksUp fun _ => [] := by
  refine quiet fun m name after hx => ?_
  unfold Exec.print at hx
  split at hx <;> cases hx

theorem pure (a : α) : LooksUp (Pure.pure a) fun _ => [] :=
  quiet fun m name after hx => by cases hx

theorem define (name : String) (value : Value) : (Exec.define name value).LooksUp fun _ => [] :=
  quiet fun m name after hx => by cases hx

end Exec.LooksUp

theorem Stmt.exec_looksUp (steps : Nat) (s : Stmt) : (s.exec steps).LooksUp (s.lookups steps) := by
  -- Not on the statement: a loop that goes round again is executed as a whole, with fewer steps.
  induction steps generalizing s with
  | zero => exact .quiet fun m name after hx => by cases hx
  | succ steps ih =>
    cases s with
    | print value => exact (Exec.LooksUp.eval value).bind_quiet (.eval value) .print
    | expression value => exact (Exec.LooksUp.eval value).bind_quiet (.eval value) fun _ => .pure ()
    | declare name initial =>
      cases initial with
      | none => exact .define _ _
      | some e => exact (Exec.LooksUp.eval e).bind_quiet (.eval e) fun v => .define _ v
    | block body => exact (Exec.LooksUp.forM ih (.exec steps) body).inNewScope
    | ifThen condition body =>
      refine (Exec.LooksUp.eval condition).bind (.eval condition) fun c => ?_
      cases c.truthy with
      | true => exact ih body
      | false => exact .pure ()
    | ifElse condition body otherwise =>
      refine (Exec.LooksUp.eval condition).bind (.eval condition) fun c => ?_
      cases c.truthy with
      | true => exact ih body
      | false => exact ih otherwise
    | loop condition body =>
      refine (Exec.LooksUp.eval condition).bind (.eval condition) fun c => ?_
      cases c.truthy with
      | true => exact (ih body).bind (.exec steps body) fun _ => ih (.loop condition body)
      | false => exact .pure ()

namespace Machine

theorem executeAll_looksUp (steps : Nat) (program : List Stmt) :
    (executeAll steps program).LooksUp (lookups steps program) :=
  .forM (Stmt.exec_looksUp steps) (.exec steps) program

/-- A run that ends for want of a variable has just looked it up, where no scope on the way outward binds
it, and has found all names before. -/
theorem interpret_unbound {steps : Nat} {program : List Stmt} {m after : Machine} {name : Token}
    (hm : m.store.Hosts m.current)
    (h : interpret steps program m = some (.error (.undefinedVariable name), after)) :
    ∃ earlier l path, lookups steps program m = earlier ++ [l] ∧ (∀ k ∈ earlier, k.found = true) ∧
      l.name = name ∧ Chain l.store.links l.scope path ∧
      ∀ k ∈ path, l.store.binds k name.lexeme = false := by
  have hlooks := executeAll_looksUp steps program
  obtain ⟨⟨r, ended⟩, hall, heq⟩ := Option.map_eq_some_iff.mp h
  have hr : r = .error (.undefinedVariable name) := by
    cases r <;> cases heq
    rfl
  obtain ⟨earlier, l, htrace, hearlier, hl, rfl⟩ := (hlooks.accounts m r ended hall).exists_unmet hr
  have hhosts : l.store.Hosts l.scope := hlooks.hosts m hm l (by simp [htrace])
  have hnone : l.store.resolve l.scope l.name.lexeme = none := by simpa [Lookup.found] using hl
  obtain ⟨path, hpath, hunbound⟩ := hhosts.unbound hnone
  exact ⟨earlier, l, path, htrace, hearlier, rfl, hpath, hunbound⟩

end Machine

end Lox
