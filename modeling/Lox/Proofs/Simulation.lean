import Lox.Machine.Steps
import Lox.Proofs.Frames

/-!
A machine on linked scopes does what the plain semantics does on a list of maps.  The maps are those of
the scopes on the way outward from the current one.
-/

set_option autoImplicit false

namespace Lox

/-- The scopes with the numbers on the path are linked in this order and hold the maps. -/
inductive Store.Shows (st : Store) : List Nat → List Frame → Prop where
  | outermost {i : Nat} {s : Scope} : st.scopes[i]? = some s → s.parent = none → Shows st [i] [s.get?]
  | link {i j : Nat} {path : List Nat} {s : Scope} {fs : List Frame} :
      st.scopes[i]? = some s → s.parent = some j → j < i → Shows st (j :: path) fs →
      Shows st (i :: j :: path) (s.get? :: fs)

namespace Store

theorem get?_set (s : Scope) (name : String) (value : Value) :
    (s.set name value).get? = Frame.bind s.get? name value := by
  funext n
  by_cases h : n = name
  · subst h
    simp [Frame.bind]
  · simp [Frame.bind, h, Scope.get?_set_of_ne s h]

theorem scopes_define_self {st : Store} {i : Nat} {s : Scope} (h : st.scopes[i]? = some s)
    (name : String) (value : Value) :
    (st.define i name value).scopes[i]? = some (s.set name value) := by
  simp [define, Array.getElem?_modify, h]

theorem scopes_define_of_ne {st : Store} {i j : Nat} (h : j ≠ i) (name : String) (value : Value) :
    (st.define i name value).scopes[j]? = st.scopes[j]? := by
  simp [define, Array.getElem?_modify, h.symm]

namespace Shows

theorem bound {st : Store} {i : Nat} {path : List Nat} {fs : List Frame}
    (h : st.Shows (i :: path) fs) : i < st.size := by
  cases h with
  | outermost hs _ | link hs _ _ _ => exact (Array.getElem?_eq_some_iff.mp hs).1

theorem congr {st st' : Store} {i : Nat} {path : List Nat} {fs : List Frame}
    (h : st.Shows (i :: path) fs) (heq : ∀ j, j ≤ i → st'.scopes[j]? = st.scopes[j]?) :
    st'.Shows (i :: path) fs := by
  generalize hp : i :: path = p at h
  induction h generalizing i path with
  | outermost hs hn =>
    cases hp
    exact .outermost (by rw [heq _ (Nat.le_refl _), hs]) hn
  | link hs hj hlt _ ih =>
    cases hp
    have htail := ih (fun k hk => heq k (by omega)) rfl
    exact .link (by rw [heq _ (Nat.le_refl _), hs]) hj hlt htail

theorem define {st : Store} {i : Nat} {path : List Nat} {f : Frame} {fs : List Frame}
    (h : st.Shows (i :: path) (f :: fs)) (name : String) (value : Value) :
    (st.define i name value).Shows (i :: path) (f.bind name value :: fs) := by
  cases h with
  | outermost hs hn =>
    rw [← get?_set]
    exact .outermost (scopes_define_self hs name value) hn
  | link hs hj hlt htail =>
    rw [← get?_set]
    refine .link (scopes_define_self hs name value) hj hlt (htail.congr ?_)
    intro k hk
    exact scopes_define_of_ne (by omega) name value

theorem lookup {st : Store} {i : Nat} {path : List Nat} {fs : List Frame}
    (h : st.Shows (i :: path) fs) (name : String) : st.lookup i name = Frame.read name fs := by
  generalize hp : i :: path = p at h
  induction h generalizing i path with
  | @outermost i s hs hn =>
    cases hp
    rw [Store.lookup, resolve, hs]
    cases hv : s.get? name with
    | none => simp [Scope.binds, hv, hn, Frame.read]
    | some v => simp [Scope.binds, hv, hs, Frame.read]
  | @link i j path s fs hs hj hlt _ ih =>
    cases hp
    have htail := ih rfl
    rw [Store.lookup] at htail
    rw [Store.lookup, resolve, hs]
    cases hv : s.get? name with
    | none => simp [Scope.binds, hv, hj, hlt, htail, Frame.read]
    | some v => simp [Scope.binds, hv, hs, Frame.read]

theorem get {st : Store} {i : Nat} {path : List Nat} {fs : List Frame}
    (h : st.Shows (i :: path) fs) (name : Token) :
    st.get i name = match Frame.read name.lexeme fs with
      | some value => .ok value
      | none => .error (.undefinedVariable name) := by
  cases hr : Frame.read name.lexeme fs with
  | none => simp [Store.get, h.lookup, hr]
  | some value => simp [Store.get, h.lookup, hr]

theorem resolve_of_overwrite {st : Store} {i : Nat} {path : List Nat} {fs fs' : List Frame}
    {name : String} {value : Value} (h : st.Shows (i :: path) fs)
    (ho : Frame.overwrite name value fs = some fs') :
    ∃ k, st.resolve i name = some k ∧ k ≤ i ∧ (st.define k name value).Shows (i :: path) fs' := by
  generalize hp : i :: path = p at h
  induction h generalizing i path fs' with
  | @outermost i s hs hn =>
    cases hp
    cases hv : s.get? name with
    | none => simp [Frame.overwrite, hv] at ho
    | some v =>
      simp only [Frame.overwrite, hv, Option.some.injEq] at ho
      subst ho
      refine ⟨i, ?_, Nat.le_refl _, (Shows.outermost hs hn).define name value⟩
      rw [resolve, hs]
      simp [Scope.binds, hv]
  | @link i j path s fs hs hj hlt htail ih =>
    cases hp
    cases hv : s.get? name with
    | none =>
      simp only [Frame.overwrite, hv, Option.map_eq_some_iff] at ho
      obtain ⟨later, ho, rfl⟩ := ho
      obtain ⟨k, hk, hle, hshows⟩ := ih ho rfl
      refine ⟨k, ?_, by omega, .link ?_ hj hlt hshows⟩
      · rw [resolve, hs]
        simp [Scope.binds, hv, hj, hlt, hk]
      · rw [scopes_define_of_ne (by omega), hs]
    | some v =>
      simp only [Frame.overwrite, hv, Option.some.injEq] at ho
      subst ho
      refine ⟨i, ?_, Nat.le_refl _, (Shows.link hs hj hlt htail).define name value⟩
      rw [resolve, hs]
      simp [Scope.binds, hv]

theorem resolve_of_overwrite_none {st : Store} {i : Nat} {path : List Nat} {fs : List Frame}
    {name : String} {value : Value} (h : st.Shows (i :: path) fs)
    (ho : Frame.overwrite name value fs = none) : st.resolve i name = none := by
  generalize hp : i :: path = p at h
  induction h generalizing i path with
  | @outermost i s hs hn =>
    cases hp
    cases hv : s.get? name with
    | none =>
      rw [resolve, hs]
      simp [Scope.binds, hv, hn]
    | some v => simp [Frame.overwrite, hv] at ho
  | @link i j path s fs hs hj hlt htail ih =>
    cases hp
    cases hv : s.get? name with
    | none =>
      have hlater : Frame.overwrite name value fs = none := by simpa [Frame.overwrite, hv] using ho
      have hr := ih hlater rfl
      rw [resolve, hs]
      simp [Scope.binds, hv, hj, hlt, hr]
    | some v => simp [Frame.overwrite, hv] at ho

theorem push {st : Store} {i : Nat} {path : List Nat} {fs : List Frame}
    (h : st.Shows (i :: path) fs) :
    (st.push (some i)).Shows (st.size :: i :: path) (.empty :: fs) := by
  have hnew : (st.push (some i)).scopes[st.size]? = some { parent := some i } := by
    simp [Store.push, Store.size]
  have hold := h.bound
  refine .link hnew rfl hold (h.congr ?_)
  intro k hk
  have hlt : k < st.scopes.size := by
    unfold Store.size at hold
    omega
  simp [Store.push, Array.getElem?_push, Nat.ne_of_lt hlt]

theorem pop {st : Store} {i j : Nat} {path : List Nat} {f : Frame} {fs : List Frame}
    (h : st.Shows (i :: j :: path) (f :: fs)) (hi : st.size = i + 1) :
    st.pop.Shows (j :: path) fs := by
  cases h with
  | link _ _ hlt htail =>
    refine htail.congr ?_
    intro k hk
    unfold Store.size at hi
    have hlt' : k < st.scopes.size - 1 := by omega
    simp [Store.pop, hlt']

end Shows

end Store

namespace Expr

/-- Evaluating keeps the path and the number of scopes, and agrees with the plain semantics. -/
theorem eval_shows (e : Expr) {st : Store} {i : Nat} {path : List Nat} {fs : List Frame}
    (h : st.Shows (i :: path) fs) :
    ∃ r st' fs', e.eval i st = (r, st') ∧ e.evaluate fs = (r, fs') ∧ st'.Shows (i :: path) fs' ∧
      st'.size = st.size := by
  induction e generalizing st fs with
  | literal value => exact ⟨.ok value, st, fs, rfl, rfl, h, rfl⟩
  | grouping inner ih => exact ih h
  | var name =>
    cases hv : Frame.read name.lexeme fs with
    | none =>
      refine ⟨.error (.undefinedVariable name), st, fs, ?_, ?_, h, rfl⟩
      · simp [eval, Eval.get, h.get, hv]
      · simp [evaluate, hv]
    | some v =>
      refine ⟨.ok v, st, fs, ?_, ?_, h, rfl⟩
      · simp [eval, Eval.get, h.get, hv]
      · simp [evaluate, hv]
  | assign name value ih =>
    obtain ⟨r, st', fs', hm, hf, hs, hz⟩ := ih h
    cases r with
    | error err =>
      exact ⟨.error err, st', fs', by simp [eval, Eval.bind_apply, hm], by simp [evaluate, hf], hs, hz⟩
    | ok v =>
      cases ho : Frame.overwrite name.lexeme v fs' with
      | none =>
        have hr := hs.resolve_of_overwrite_none ho
        refine ⟨.error (.undefinedVariable name), st', fs', ?_, ?_, hs, hz⟩
        · simp [eval, Eval.bind_apply, hm, Eval.assign, Store.assign, hr]
        · simp [evaluate, hf, ho]
      | some later =>
        obtain ⟨k, hr, -, hd⟩ := hs.resolve_of_overwrite ho
        refine ⟨.ok v, st'.define k name.lexeme v, later, ?_, ?_, hd, by simpa using hz⟩
        · simp [eval, Eval.bind_apply, hm, Eval.assign, Store.assign, hr]
        · simp [evaluate, hf, ho]
  | unary op operand ih =>
    obtain ⟨r, st', fs', hm, hf, hs, hz⟩ := ih h
    cases r with
    | error err =>
      exact ⟨.error err, st', fs', by simp [eval, Eval.bind_apply, hm], by simp [evaluate, hf], hs, hz⟩
    | ok v =>
      refine ⟨applyUnary op v, st', fs', ?_, ?_, hs, hz⟩
      · simp [eval, Eval.bind_apply, hm, Eval.ofExcept]
      · simp [evaluate, hf]
  | binary op left right ihl ihr =>
    obtain ⟨r, st', fs', hm, hf, hs, hz⟩ := ihl h
    cases r with
    | error err =>
      exact ⟨.error err, st', fs', by simp [eval, Eval.bind_apply, hm], by simp [evaluate, hf], hs, hz⟩
    | ok l =>
      obtain ⟨r, st'', fs'', hm', hf', hs', hz'⟩ := ihr hs
      cases r with
      | error err =>
        refine ⟨.error err, st'', fs'', ?_, ?_, hs', hz'.trans hz⟩
        · simp [eval, Eval.bind_apply, hm, hm']
        · simp [evaluate, hf, hf']
      | ok r =>
        refine ⟨applyBinary op l r, st'', fs'', ?_, ?_, hs', hz'.trans hz⟩
        · simp [eval, Eval.bind_apply, hm, hm', Eval.ofExcept]
        · simp [evaluate, hf, hf']
  | logical op left right ihl ihr =>
    obtain ⟨r, st', fs', hm, hf, hs, hz⟩ := ihl h
    cases r with
    | error err =>
      exact ⟨.error err, st', fs', by simp [eval, Eval.bind_apply, hm], by simp [evaluate, hf], hs, hz⟩
    | ok l =>
      by_cases hd : l.truthy = decide (op.kind = .kwOr)
      · refine ⟨.ok l, st', fs', ?_, ?_, hs, hz⟩
        · simp [eval, Eval.bind_apply, hm, hd, Eval.pure_apply]
        · simp only [evaluate, hf]
          split <;> simp_all
      · obtain ⟨r, st'', fs'', hm', hf', hs', hz'⟩ := ihr hs
        refine ⟨r, st'', fs'', ?_, ?_, hs', hz'.trans hz⟩
        · simp [eval, Eval.bind_apply, hm, hd, hm']
        · simp only [evaluate, hf]
          split <;> simp_all

end Expr

/-- The maps on the way outward from the current scope, and the sink, are those of the plain state. -/
def Machine.Shows (m : Machine) (path : List Nat) (state : List Frame × Sink) : Prop :=
  m.store.Shows (m.current :: path) state.1 ∧ m.out = state.2

def Machine.Reaches (m : Machine) (path : List Nat) (m' : Machine) (state : List Frame × Sink) : Prop :=
  m'.Shows path state ∧ m'.current = m.current ∧ m'.store.size = m.store.size

theorem Machine.Reaches.trans {m m' m'' : Machine} {path : List Nat} {mid after : List Frame × Sink}
    (h : m.Reaches path m' mid) (h' : m'.Reaches path m'' after) : m.Reaches path m'' after :=
  ⟨h'.1, h'.2.1.trans h.2.1, h'.2.2.trans h.2.2⟩

namespace Exec

variable {α β : Type}

theorem eval_shows (e : Expr) {m : Machine} {path : List Nat} {fs : List Frame} {out : Sink}
    (h : m.Shows path (fs, out)) :
    ∃ r m' fs', eval e m = some (r, m') ∧ e.evaluate fs = (r, fs') ∧ m.Reaches path m' (fs', out) := by
  obtain ⟨r, st', fs', hm, hf, hs, hz⟩ := e.eval_shows h.1
  exact ⟨r, { m with store := st' }, fs', by simp [eval, hm], hf, ⟨hs, h.2⟩, rfl, hz⟩

theorem define_shows {m : Machine} {path : List Nat} {f : Frame} {fs : List Frame} {out : Sink}
    (h : m.Shows path (f :: fs, out)) (name : String) (value : Value) :
    ∃ m', define name value m = some (.ok (), m') ∧
      m.Reaches path m' (f.bind name value :: fs, out) :=
  ⟨_, rfl, ⟨h.1.define name value, h.2⟩, rfl, by simp⟩

theorem bind_ok {x : Exec α} {m m' : Machine} {a : α} (h : x m = some (.ok a, m')) (f : α → Exec β) :
    (x >>= f) m = f a m' := by
  simp [bind_apply, h]

theorem bind_error {x : Exec α} {m m' : Machine} {err : RuntimeError}
    (h : x m = some (.error err, m')) (f : α → Exec β) : (x >>= f) m = some (.error err, m') := by
  simp [bind_apply, h]

theorem print_shows {m : Machine} {path : List Nat} {fs : List Frame} {out out' : Sink} {v : Value}
    {written : Bool} (h : m.Shows path (fs, out)) (hw : out.writeLine v.text = (out', written)) :
    ∃ m', print v m = some (if written then .ok () else .error (.output Sink.full), m') ∧
      m.Reaches path m' (fs, out') := by
  refine ⟨{ m with out := out' }, ?_, ⟨h.1, rfl⟩, rfl, rfl⟩
  have ho : m.out = out := h.2
  cases written <;> simp [print, ho, hw]

/-- A block runs with an empty map in front, which is gone afterwards. -/
theorem inNewScope_shows {body : Exec α} {m inner : Machine} {path : List Nat} {f : Frame}
    {fs : List Frame} {out : Sink} {r : Except RuntimeError α}
    (hx : body { m with store := m.store.push (some m.current), current := m.store.size } =
      some (r, inner))
    (hr : Machine.Reaches { m with store := m.store.push (some m.current), current := m.store.size }
      (m.current :: path) inner (f :: fs, out)) :
    ∃ m', inNewScope body m = some (r, m') ∧ m.Reaches path m' (fs, out) := by
  obtain ⟨⟨hs, ho⟩, hc, hz⟩ := hr
  refine ⟨{ inner with current := m.current, store := inner.store.pop }, ?_, ⟨?_, ho⟩, rfl, ?_⟩
  · simp [inNewScope, inScope, hx]
  · rw [hc] at hs
    exact hs.pop (by simpa using hz)
  · simp [hz]

theorem push_shows {m : Machine} {path : List Nat} {fs : List Frame} {out : Sink}
    (h : m.Shows path (fs, out)) :
    Machine.Shows { m with store := m.store.push (some m.current), current := m.store.size }
      (m.current :: path) (.empty :: fs, out) :=
  ⟨h.1.push, h.2⟩

theorem inNewScope_eq_some {body : Exec α} {m m' : Machine} {r : Except RuntimeError α}
    (h : inNewScope body m = some (r, m')) :
    ∃ inner, body { m with store := m.store.push (some m.current), current := m.store.size } =
      some (r, inner) := by
  simp only [inNewScope, inScope, Option.map_map] at h
  obtain ⟨⟨r', inner⟩, hx, heq⟩ := Option.map_eq_some_iff.mp h
  cases heq
  exact ⟨inner, hx⟩

end Exec

theorem Store.Shows.exists_cons {st : Store} {path : List Nat} {fs : List Frame}
    (h : st.Shows path fs) : ∃ f later, fs = f :: later := by
  cases h with
  | outermost _ _ => exact ⟨_, _, rfl⟩
  | link _ _ _ _ => exact ⟨_, _, rfl⟩

/-- Whenever the computation ends, the plain semantics ends in the same way. -/
def Exec.Follows {α : Type} (x : Exec α) (before : List Frame × Sink)
    (R : Except RuntimeError α → List Frame × Sink → Prop) : Prop :=
  ∀ m m' r path, m.Shows path before → x m = some (r, m') →
    ∃ after, R r after ∧ m.Reaches path m' after

namespace Exec.Follows

variable {α β : Type} {before : List Frame × Sink}

theorem mono {x : Exec α} {R R' : Except RuntimeError α → List Frame × Sink → Prop}
    (h : x.Follows before R) (hR : ∀ r after, R r after → R' r after) : x.Follows before R' := by
  intro m m' r path hm hx
  obtain ⟨after, hr, hreach⟩ := h m m' r path hm hx
  exact ⟨after, hR r after hr, hreach⟩

theorem pure {R : Except RuntimeError α → List Frame × Sink → Prop} {a : α}
    (h : R (.ok a) before) : Follows (Pure.pure a : Exec α) before R := by
  intro m m' r path hm hx
  cases hx
  exact ⟨before, h, hm, rfl, rfl⟩

theorem bind {x : Exec α} {f : α → Exec β} {R : Except RuntimeError α → List Frame × Sink → Prop}
    {R' : Except RuntimeError β → List Frame × Sink → Prop} (h : x.Follows before R)
    (herr : ∀ err after, R (.error err) after → R' (.error err) after)
    (hok : ∀ a mid, R (.ok a) mid → (f a).Follows mid R') : (x >>= f).Follows before R' := by
  intro m m' r path hm hx
  rw [Exec.bind_apply] at hx
  cases hs : x m with
  | none => simp [hs] at hx
  | some result =>
    obtain ⟨r', m1⟩ := result
    obtain ⟨mid, hr, hreach⟩ := h m m1 r' path hm hs
    cases r' with
    | error err =>
      simp only [hs, Option.some.injEq, Prod.mk.injEq] at hx
      obtain ⟨rfl, rfl⟩ := hx
      exact ⟨mid, herr err mid hr, hreach⟩
    | ok a =>
      simp only [hs] at hx
      obtain ⟨after, hr', hreach'⟩ := hok a mid hr m1 m' r path hreach.1 hx
      exact ⟨after, hr', hreach.trans hreach'⟩

theorem eval (e : Expr) (fs : List Frame) (out : Sink) :
    (Exec.eval e).Follows (fs, out) fun r after => ∃ fs', e.evaluate fs = (r, fs') ∧ after = (fs', out) := by
  intro m m' r path hm hx
  obtain ⟨r', m1, fs', hx', hf, hreach⟩ := Exec.eval_shows e hm
  rw [hx'] at hx
  cases hx
  exact ⟨(fs', out), ⟨fs', hf, rfl⟩, hreach⟩

theorem leading {s : Stmt} {e : Expr} (hs : s.leading = some e) {k : Value → Exec Unit}
    {fs : List Frame} {out : Sink}
    (hok : ∀ v fs', e.evaluate fs = (.ok v, fs') → (k v).Follows (fs', out) (Runs s (fs, out))) :
    (Exec.eval e >>= k).Follows (fs, out) (Runs s (fs, out)) := by
  refine (eval e fs out).bind ?_ ?_
  · intro err after h
    obtain ⟨fs', hf, rfl⟩ := h
    exact .failed hs hf
  · intro v mid h
    obtain ⟨fs', hf, rfl⟩ := h
    exact hok v fs' hf

theorem print (v : Value) (fs : List Frame) (out : Sink) :
    (Exec.print v).Follows (fs, out) fun r after => ∃ out' written,
      out.writeLine v.text = (out', written) ∧ after = (fs, out') ∧
        r = if written then .ok () else .error (.output Sink.full) := by
  intro m m' r path hm hx
  rcases hw : out.writeLine v.text with ⟨out', written⟩
  obtain ⟨m1, hx', hreach⟩ := Exec.print_shows hm hw
  rw [hx'] at hx
  cases hx
  exact ⟨(fs, out'), ⟨out', written, rfl, rfl, rfl⟩, hreach⟩

theorem define (name : String) (v : Value) (fs : List Frame) (out : Sink) :
    (Exec.define name v).Follows (fs, out) fun r after => ∃ f later, fs = f :: later ∧ r = .ok () ∧
      after = (f.bind name v :: later, out) := by
  intro m m' r path hm hx
  obtain ⟨f, later, rfl⟩ := hm.1.exists_cons
  obtain ⟨m1, hx', hreach⟩ := Exec.define_shows hm name v
  rw [hx'] at hx
  cases hx
  exact ⟨_, ⟨f, later, rfl, rfl, rfl⟩, hreach⟩

theorem inNewScope {x : Exec Unit} {fs : List Frame} {out : Sink}
    {R : Except RuntimeError Unit → List Frame × Sink → Prop} (h : x.Follows (.empty :: fs, out) R) :
    (Exec.inNewScope x).Follows (fs, out) fun r after => ∃ f, R r (f :: after.1, after.2) := by
  intro m m' r path hm hx
  obtain ⟨inner, hin⟩ := Exec.inNewScope_eq_some hx
  obtain ⟨⟨ms, out'⟩, hr, hreach⟩ := h _ _ _ _ (Exec.push_shows hm) hin
  obtain ⟨f, later, rfl⟩ := hreach.1.1.exists_cons
  obtain ⟨m1, hx', hreach'⟩ := Exec.inNewScope_shows hin hreach
  rw [hx'] at hx
  cases hx
  exact ⟨(later, out'), ⟨f, hr⟩, hreach'⟩

theorem forM {f : Stmt → Exec Unit} (hf : ∀ s before, (f s).Follows before (Runs s before))
    (body : List Stmt) (before : List Frame × Sink) :
    Follows (body.forM f) before (RunsAll body before) := by
  induction body generalizing before with
  | nil => exact pure .nil
  | cons s rest ih =>
    refine (hf s before).bind (fun err after h => .abandoned h) ?_
    intro _ mid h
    exact (ih mid).mono fun r after h' => .next h h'

end Exec.Follows

theorem Stmt.exec_follows (steps : Nat) (s : Stmt) (before : List Frame × Sink) :
    (s.exec steps).Follows before (Runs s before) := by
  obtain ⟨fs, out⟩ := before
  induction steps generalizing s fs out with
  | zero => exact fun m m' r path hm hx => nomatch hx
  | succ steps ih =>
    cases s with
    | print e =>
      refine .leading rfl fun v fs' hv => (Exec.Follows.print v fs' out).mono ?_
      intro r after h
      obtain ⟨out', written, hw, rfl, rfl⟩ := h
      cases written with
      | true => exact .print hv hw
      | false => exact .printFull hv hw
    | expression e => exact .leading rfl fun v fs' hv => .pure (.expression hv)
    | declare name initial =>
      cases initial with
      | some e =>
        refine .leading rfl fun v fs' hv => (Exec.Follows.define name.lexeme v fs' out).mono ?_
        intro r after h
        obtain ⟨f, later, rfl, rfl, rfl⟩ := h
        exact .declare hv
      | none =>
        refine (Exec.Follows.define name.lexeme .nil fs out).mono ?_
        intro r after h
        obtain ⟨f, later, rfl, rfl, rfl⟩ := h
        exact .declareNil
    | block body =>
      have hbody := Exec.Follows.forM (fun s before => ih s before.1 before.2) body (.empty :: fs, out)
      refine hbody.inNewScope.mono ?_
      intro r after h
      obtain ⟨f, h⟩ := h
      exact .block h
    | ifThen c body =>
      refine .leading rfl fun v fs' hv => ?_
      split
      · rename_i ht
        exact (ih body fs' out).mono fun r after h => .ifThen hv ht h
      · rename_i ht
        exact .pure (.ifSkipped hv (by simpa using ht))
    | ifElse c body otherwise =>
      refine .leading rfl fun v fs' hv => ?_
      have hbranch := ih (if v.truthy then body else otherwise) fs' out
      split
      · rename_i ht
        rw [if_pos ht] at hbranch
        exact hbranch.mono fun r after h => .ifElse hv (by rw [if_pos ht]; exact h)
      · rename_i ht
        rw [if_neg ht] at hbranch
        exact hbranch.mono fun r after h => .ifElse hv (by rw [if_neg ht]; exact h)
    | loop c body =>
      refine .leading rfl fun v fs' hv => ?_
      split
      · rename_i ht
        refine (ih body fs' out).bind (fun err after h => .loopBroken hv ht h) ?_
        intro _ mid h
        exact (ih (.loop c body) mid.1 mid.2).mono fun r after h' => .loop hv ht h h'
      · rename_i ht
        exact .pure (.loopDone hv (by simpa using ht))

/-- With enough steps the computation ends in this way. -/
def Exec.Achieves (x : Nat → Exec Unit) (before : List Frame × Sink) (r : Except RuntimeError Unit)
    (after : List Frame × Sink) : Prop :=
  ∀ m path, m.Shows path before → ∃ steps m', x steps m = some (r, m') ∧ m.Reaches path m' after

theorem Exec.Achieves.bind {x : Nat → Exec Unit} {k : Nat → Exec Unit} {r : Except RuntimeError Unit}
    {before mid after : List Frame × Sink} (hx : Achieves x before (.ok ()) mid)
    (hk : Achieves k mid r after) (mono : ∀ {n n'}, n ≤ n' → (x n).Refines (x n'))
    (mono' : ∀ {n n'}, n ≤ n' → (k n).Refines (k n')) :
    Achieves (fun steps => x steps >>= fun _ => k steps) before r after := by
  intro m path hm
  obtain ⟨n, m1, hx, hreach⟩ := hx m path hm
  obtain ⟨n', m', hk, hreach'⟩ := hk m1 path hreach.1
  refine ⟨max n n', m', ?_, hreach.trans hreach'⟩
  have hfirst := mono (Nat.le_max_left n n') m _ hx
  exact (Exec.bind_ok hfirst _).trans (mono' (Nat.le_max_right n n') m1 _ hk)

theorem Stmt.achieves_of_value {s : Stmt} {e : Expr} {k : Nat → Value → Exec Unit}
    (hs : ∀ steps, s.exec (steps + 1) = (Exec.eval e >>= k steps)) {v : Value} {fs fs' : List Frame}
    {out : Sink} {r : Except RuntimeError Unit} {after : List Frame × Sink}
    (hf : e.evaluate fs = (.ok v, fs'))
    (hk : Exec.Achieves (fun steps => k steps v) (fs', out) r after) :
    Exec.Achieves (fun steps => s.exec steps) (fs, out) r after := by
  intro m path hm
  obtain ⟨r', m1, ms, hx, hf', hreach⟩ := Exec.eval_shows e hm
  rw [hf] at hf'
  cases hf'
  obtain ⟨steps, m', hx', hreach'⟩ := hk m1 path hreach.1
  refine ⟨steps + 1, m', ?_, hreach.trans hreach'⟩
  show s.exec (steps + 1) m = some (r, m')
  rw [hs, Exec.bind_ok hx]
  exact hx'

theorem Stmt.achieves_of_failure {s : Stmt} {e : Expr} {k : Value → Exec Unit}
    (hs : s.exec 1 = (Exec.eval e >>= k)) {fs fs' : List Frame} {out : Sink} {err : RuntimeError}
    (hf : e.evaluate fs = (.error err, fs')) :
    Exec.Achieves (fun steps => s.exec steps) (fs, out) (.error err) (fs', out) := by
  intro m path hm
  obtain ⟨r, m', ms, hx, hf', hreach⟩ := Exec.eval_shows e hm
  rw [hf] at hf'
  cases hf'
  refine ⟨1, m', ?_, hreach⟩
  show s.exec 1 m = some (.error err, m')
  rw [hs, Exec.bind_error hx]

theorem Exec.achieves_pure (before : List Frame × Sink) :
    Achieves (fun _ => pure ()) before (.ok ()) before :=
  fun m _ hm => ⟨0, m, rfl, hm, rfl, rfl⟩

theorem Exec.achieves_print {v : Value} {fs : List Frame} {out out' : Sink} {written : Bool}
    (hw : out.writeLine v.text = (out', written)) :
    Achieves (fun _ => print v) (fs, out)
      (if written then .ok () else .error (.output Sink.full)) (fs, out') := by
  intro m path hm
  obtain ⟨m', hx, hreach⟩ := Exec.print_shows hm hw
  exact ⟨0, m', hx, hreach⟩

theorem Exec.achieves_define (name : String) (v : Value) (f : Frame) (fs : List Frame) (out : Sink) :
    Achieves (fun _ => define name v) (f :: fs, out) (.ok ()) (f.bind name v :: fs, out) := by
  intro m path hm
  obtain ⟨m', hx, hreach⟩ := Exec.define_shows hm name v
  exact ⟨0, m', hx, hreach⟩

mutual

theorem Runs.achieves {s : Stmt} {before after : List Frame × Sink} {r : Except RuntimeError Unit} :
    Runs s before r after → Exec.Achieves (fun steps => s.exec steps) before r after
  | @Runs.failed s e fs fs' out err hs hf => by
    cases s with
    | declare name initial =>
      cases initial with
      | none => cases hs
      | some e' =>
        cases hs
        exact Stmt.achieves_of_failure rfl hf
    | block body => cases hs
    | _ =>
      cases hs
      exact Stmt.achieves_of_failure rfl hf
  | .print hf hw => Stmt.achieves_of_value (fun _ => rfl) hf (Exec.achieves_print hw)
  | .printFull hf hw => Stmt.achieves_of_value (fun _ => rfl) hf (Exec.achieves_print hw)
  | .expression hf => Stmt.achieves_of_value (fun _ => rfl) hf (Exec.achieves_pure _)
  | .declare hf => Stmt.achieves_of_value (fun _ => rfl) hf (Exec.achieves_define _ _ _ _ _)
  | @Runs.declareNil name f fs out => by
    intro m path hm
    obtain ⟨m', hx, hreach⟩ := Exec.define_shows hm name.lexeme .nil
    exact ⟨1, m', hx, hreach⟩
  | .block hb => by
    intro m path hm
    obtain ⟨steps, inner, hx, hreach⟩ := hb.achieves _ _ (Exec.push_shows hm)
    obtain ⟨m', hx', hreach'⟩ := Exec.inNewScope_shows hx hreach
    exact ⟨steps + 1, m', hx', hreach'⟩
  | .ifThen hf ht hb => by
    refine Stmt.achieves_of_value (fun _ => rfl) hf ?_
    simp only [ht, if_true]
    exact hb.achieves
  | .ifSkipped hf ht => by
    refine Stmt.achieves_of_value (fun _ => rfl) hf ?_
    simp only [ht, Bool.false_eq_true, if_false]
    exact Exec.achieves_pure _
  | .ifElse hf hb => by
    refine Stmt.achieves_of_value (fun _ => rfl) hf ?_
    have hbranch := hb.achieves
    split at hbranch
    · rename_i ht
      simpa only [if_pos ht] using hbranch
    · rename_i ht
      simpa only [if_neg ht] using hbranch
  | .loopDone hf ht => by
    refine Stmt.achieves_of_value (fun _ => rfl) hf ?_
    simp only [ht, Bool.false_eq_true, if_false]
    exact Exec.achieves_pure _
  | .loopBroken hf ht hb => by
    refine Stmt.achieves_of_value (fun _ => rfl) hf ?_
    simp only [ht, if_true]
    intro m path hm
    obtain ⟨steps, m', hx, hreach⟩ := hb.achieves m path hm
    exact ⟨steps, m', Exec.bind_error hx _, hreach⟩
  | .loop hf ht hb hl => by
    refine Stmt.achieves_of_value (fun _ => rfl) hf ?_
    simp only [ht, if_true]
    exact hb.achieves.bind hl.achieves (fun h => Stmt.exec_refines h _) (fun h => Stmt.exec_refines h _)

theorem RunsAll.achieves {body : List Stmt} {before after : List Frame × Sink}
    {r : Except RuntimeError Unit} : RunsAll body before r after →
    Exec.Achieves (fun steps => body.forM (Stmt.exec steps)) before r after
  | .nil => Exec.achieves_pure _
  | .abandoned hs => by
    intro m path hm
    obtain ⟨steps, m', hx, hreach⟩ := hs.achieves m path hm
    exact ⟨steps, m', Exec.bind_error hx _, hreach⟩
  | .next hs hrest =>
    hs.achieves.bind hrest.achieves (fun h => Stmt.exec_refines h _)
      (fun h => Exec.Refines.forM (Stmt.exec_refines h) _)

end

def Machine.globalFrame (m : Machine) : Frame := fun name =>
  m.store.scopes[Machine.globals]?.bind (·.get? name)

theorem Machine.eq_of_shows_globals {m : Machine} {state : List Frame × Sink} (h : m.Shows [] state)
    (hc : m.current = Machine.globals) : state = ([m.globalFrame], m.out) := by
  obtain ⟨fs, out⟩ := state
  obtain ⟨hs, ho⟩ := h
  rw [hc] at hs
  cases hs with
  | @outermost _ s hi _ =>
    have hframe : m.globalFrame = s.get? := by
      funext name
      simp [Machine.globalFrame, hi]
    rw [hframe, ho]

theorem Machine.interpret_eq_some {steps : Nat} {program : List Stmt} {m m' : Machine}
    {r : Except RuntimeError Unit} (h : executeAll steps program m = some (r, m'))
    (hc : m'.current = Machine.globals) : interpret steps program m = some (r, m') := by
  cases r with
  | ok => simp [interpret, h]
  | error err =>
    simp only [interpret, h, Option.map_some]
    rw [← hc]

/-- A machine at its outermost scope ends a program exactly as the plain semantics does from the map of
that scope alone: both end or neither does, with the same result, output and final map. -/
theorem interpret_refines_frames (program : List Stmt) {m : Machine} {g : Scope}
    (hc : m.current = Machine.globals) (hg : m.store.scopes[Machine.globals]? = some g)
    (hp : g.parent = none) (r : Except RuntimeError Unit) (after : List Frame × Sink) :
    RunsAll program ([g.get?], m.out) r after ↔
      ∃ steps m', Machine.interpret steps program m = some (r, m') ∧
        after = ([m'.globalFrame], m'.out) := by
  have hm : m.Shows [] ([g.get?], m.out) := ⟨hc ▸ .outermost hg hp, rfl⟩
  constructor
  · intro h
    obtain ⟨steps, m', hx, hreach⟩ := h.achieves m [] hm
    have hc' : m'.current = Machine.globals := hreach.2.1.trans hc
    exact ⟨steps, m', Machine.interpret_eq_some hx hc', Machine.eq_of_shows_globals hreach.1 hc'⟩
  · intro h
    obtain ⟨steps, m', hx, rfl⟩ := h
    obtain ⟨⟨r', ended⟩, he, -⟩ := Option.map_eq_some_iff.mp hx
    obtain ⟨state, hruns, hreach⟩ :=
      Exec.Follows.forM (Stmt.exec_follows steps) program _ m ended r' [] hm he
    have hc' : ended.current = Machine.globals := hreach.2.1.trans hc
    have heq := Machine.interpret_eq_some he hc'
    rw [hx] at heq
    cases heq
    rw [← Machine.eq_of_shows_globals hreach.1 hc']
    exact hruns

theorem interpret_refines_frames_shadowing :
    let a : Token := ⟨.identifier, "a", 1, none⟩
    let b : Token := ⟨.identifier, "b", 2, none⟩
    let m : Machine := ⟨⟨#[⟨[("a", .boolean true)], none⟩]⟩, Machine.globals, {}⟩
    let negated := Expr.assign a (.unary ⟨.bang, "!", 1, none⟩ (.var a))
    let program := [.block [.declare a (some (.var a)), .loop (.var a) (.block [.expression negated])],
      .print (.var a), .expression (.assign b (.literal .nil)), .print (.var a)]
    m.current = Machine.globals ∧ m.store.scopes[Machine.globals]? = some ⟨[("a", .boolean true)], none⟩ ∧
      ∃ steps m', Machine.interpret steps program m = some (.error (.undefinedVariable b), m') ∧
        m'.out.written = "true\n".toUTF8 ∧ m'.globalFrame "a" = some (.boolean true) ∧
        m'.globalFrame "b" = none := by
  intro a b m negated program
  let g : Scope := ⟨[("a", .boolean true)], none⟩
  let printed : Sink := ({} : Sink).writeLine "true" |>.1
  -- The loop turns once, on the variable of the block.
  have hblock : Runs (.block [.declare a (some (.var a)), .loop (.var a) (.block [.expression negated])])
      ([g.get?], {}) (.ok ()) ([g.get?], {}) :=
    .block (.next (.declare rfl) (.next (.loop rfl rfl (.block (.next (.expression rfl) .nil))
      (.loopDone rfl rfl)) .nil))
  have hprint : Runs (.print (.var a)) ([g.get?], {}) (.ok ()) ([g.get?], printed) := .print rfl rfl
  have hruns : RunsAll program ([g.get?], m.out) (.error (.undefinedVariable b)) ([g.get?], printed) :=
    .next hblock (.next hprint (.abandoned (.failed rfl rfl)))
  obtain ⟨steps, m', hx, heq⟩ := (interpret_refines_frames program rfl rfl rfl _ _).mp hruns
  have hframe : g.get? = m'.globalFrame := by simpa using congrArg Prod.fst heq
  have hout : printed = m'.out := congrArg Prod.snd heq
  exact ⟨rfl, rfl, steps, m', hx, by rw [← hout]; rfl, by rw [← hframe]; rfl, by rw [← hframe]; rfl⟩

end Lox
