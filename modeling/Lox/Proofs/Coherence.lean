import Lox.Proofs.Simulation

/-!
Stores of scopes as wholes.  In every store that can come about the way outward from a scope ends, a name
means its first binding on that way, and a new value is seen from just those scopes whose way comes to the
changed binding first.
-/

set_option autoImplicit false

namespace Lox

/-- The way outward from a scope, from link to link, to a scope that no other encloses. -/
inductive Chain (links : Array (Option Nat)) : Nat → List Nat → Prop where
  | outermost {i : Nat} : links[i]? = some none → Chain links i [i]
  | link {i p : Nat} {path : List Nat} :
      links[i]? = some (some p) → Chain links p path → Chain links i (i :: path)

theorem Chain.lt_size {links : Array (Option Nat)} {i k : Nat} {path : List Nat}
    (h : Chain links i path) (hk : k ∈ path) : k < links.size := by
  induction h with
  | outermost hi =>
    cases List.mem_singleton.mp hk
    exact (Array.getElem?_eq_some_iff.mp hi).1
  | link hi _ ih =>
    cases List.mem_cons.mp hk with
    | inl heq => exact heq ▸ (Array.getElem?_eq_some_iff.mp hi).1
    | inr hmem => exact ih hmem

theorem Chain.head_mem {links : Array (Option Nat)} {i : Nat} {path : List Nat}
    (h : Chain links i path) : i ∈ path := by
  cases h <;> exact List.mem_cons_self

theorem Chain.push {links : Array (Option Nat)} {i : Nat} {path : List Nat} (h : Chain links i path)
    (parent : Option Nat) : Chain (links.push parent) i path := by
  induction h with
  | outermost hi =>
    have hlt := (Array.getElem?_eq_some_iff.mp hi).1
    exact .outermost (by rw [Array.getElem?_push_lt hlt, ← hi, Array.getElem?_eq_getElem hlt])
  | link hi _ ih =>
    have hlt := (Array.getElem?_eq_some_iff.mp hi).1
    exact .link (by rw [Array.getElem?_push_lt hlt, ← hi, Array.getElem?_eq_getElem hlt]) ih

namespace Store

def links (st : Store) : Array (Option Nat) := st.scopes.map Scope.parent

def binding (st : Store) (k : Nat) (name : String) : Option Value := st.scopes[k]?.bind (·.get? name)

def binds (st : Store) (k : Nat) (name : String) : Bool := (st.binding k name).isSome

/-- The first scope on the path that binds the name. -/
def nearest (st : Store) (path : List Nat) (name : String) : Option Nat := path.find? (st.binds · name)

def seen (st : Store) (path : List Nat) (name : String) : Option Value :=
  (st.nearest path name).bind (st.binding · name)

/-- The path comes to scope `i`, and no scope before it binds the name. -/
def Exposes (st : Store) (path : List Nat) (i : Nat) (name : String) : Prop :=
  ∃ before after, path = before ++ i :: after ∧ ∀ k ∈ before, st.binds k name = false

/-- The stores that come about by opening and closing scopes, by defining, and by assigning with success
or without. -/
inductive Reachable : Store → Prop where
  | empty : Reachable {}
  | push {st : Store} (parent : Option Nat) :
      Reachable st → (∀ p, parent = some p → p < st.size) → Reachable (st.push parent)
  | pop {st : Store} : Reachable st → Reachable st.pop
  | define {st : Store} (i : Nat) (name : String) (value : Value) :
      Reachable st → Reachable (st.define i name value)
  | assign {st : Store} (i : Nat) (name : Token) (value : Value) :
      Reachable st → Reachable (Eval.assign i name value st).2

variable {st after : Store}

@[simp] theorem size_links (st : Store) : st.links.size = st.size := Array.size_map

@[simp] theorem links_push (st : Store) (parent : Option Nat) :
    (st.push parent).links = st.links.push parent := by
  simp [links, push]

@[simp] theorem links_pop (st : Store) : st.pop.links = st.links.pop := by
  simp [links, pop]

@[simp] theorem links_define (st : Store) (i : Nat) (name : String) (value : Value) :
    (st.define i name value).links = st.links := by
  apply Array.ext_getElem?
  intro k
  by_cases hk : k = i
  · subst hk
    cases hs : st.scopes[k]? with
    | none => simp [links, define, Array.getElem?_modify, hs]
    | some s => simp [links, scopes_define_self hs, hs]
  · simp [links, scopes_define_of_ne hk]

theorem scopes_push_of_lt {k : Nat} (h : k < st.size) (parent : Option Nat) :
    (st.push parent).scopes[k]? = st.scopes[k]? := by
  have hne : k ≠ st.scopes.size := Nat.ne_of_lt h
  rw [Store.push, Array.getElem?_push, if_neg hne]

theorem scopes_pop_of_lt {k : Nat} (h : k + 1 < st.size) : st.pop.scopes[k]? = st.scopes[k]? := by
  have hlt : k < st.scopes.size - 1 := Nat.lt_sub_of_add_lt h
  rw [Store.pop, Array.getElem?_pop, if_pos hlt]

theorem binding_congr {k : Nat} (h : after.scopes[k]? = st.scopes[k]?) (x : String) :
    after.binding k x = st.binding k x := by
  rw [binding, h, ← binding]

theorem binds_congr {k : Nat} {x : String} (h : after.binding k x = st.binding k x) :
    after.binds k x = st.binds k x := by
  rw [binds, h, ← binds]

theorem binding_define_self {i : Nat} (hi : i < st.size) (name : String) (value : Value) :
    (st.define i name value).binding i name = some value := by
  have hs : st.scopes[i]? = some st.scopes[i] := Array.getElem?_eq_getElem hi
  simp [binding, scopes_define_self hs]

theorem binding_define_of_ne {i k : Nat} {name other : String} (h : k ≠ i ∨ other ≠ name) (value : Value) :
    (st.define i name value).binding k other = st.binding k other := by
  by_cases hk : k = i
  · subst hk
    have hname : other ≠ name := h.resolve_left (not_not_intro rfl)
    cases hs : st.scopes[k]? with
    | none => simp [binding, define, Array.getElem?_modify, hs]
    | some s => simp [binding, scopes_define_self hs, hs, Scope.get?_set_of_ne s hname]
  · simp [binding, scopes_define_of_ne hk]

theorem binding_define_cases {i : Nat} (hi : i < st.size) (name : String) (value : Value) (k : Nat)
    (other : String) :
    (st.define i name value).binding k other = st.binding k other ∨
      (k = i ∧ other = name ∧ (st.define i name value).binds k other = true) := by
  by_cases hk : k = i
  · by_cases hname : other = name
    · exact .inr ⟨hk, hname, by rw [hk, hname, binds, binding_define_self hi]; rfl⟩
    · exact .inl (binding_define_of_ne (.inr hname) value)
  · exact .inl (binding_define_of_ne (.inl hk) value)

@[simp] theorem nearest_nil (st : Store) (name : String) : st.nearest [] name = none := rfl

theorem nearest_cons (st : Store) (j : Nat) (path : List Nat) (name : String) :
    st.nearest (j :: path) name = if st.binds j name then some j else st.nearest path name := by
  rw [nearest, List.find?_cons]
  cases st.binds j name <;> rfl

theorem getElem?_links (st : Store) (i : Nat) : st.links[i]? = st.scopes[i]?.map Scope.parent :=
  Array.getElem?_map

theorem resolve_eq (st : Store) (i : Nat) (name : String) :
    st.resolve i name =
      if st.binds i name then some i
      else match st.links[i]? with
        | some (some p) => if p < i then st.resolve p name else none
        | _ => none := by
  rw [resolve, getElem?_links]
  cases hs : st.scopes[i]? with
  | none => simp [binds, binding, hs]
  | some s => cases hp : s.parent <;> simp [binds, binding, hs, hp, Scope.binds]

theorem mem_of_resolve {i k : Nat} {path : List Nat} {name : String} (h : Chain st.links i path)
    (hk : st.resolve i name = some k) : k ∈ path := by
  induction h with
  | outermost hi =>
    rw [resolve_eq, hi] at hk
    split at hk <;> cases hk
    exact List.mem_singleton_self _
  | link hi _ ih =>
    rw [resolve_eq, hi] at hk
    split at hk
    · cases hk
      exact List.mem_cons_self
    · dsimp only at hk
      split at hk
      · exact List.mem_cons_of_mem _ (ih hk)
      · cases hk

theorem binds_of_resolve {i k : Nat} {name : String} (h : st.resolve i name = some k) :
    st.binds k name = true := by
  induction i using Nat.strongRecOn with
  | ind i ih =>
    rw [resolve_eq] at h
    split at h
    · cases h
      assumption
    · split at h
      · split at h
        · exact ih _ (by assumption) h
        · cases h
      · cases h

end Store

theorem Eval.assign_apply (i : Nat) (name : Token) (value : Value) (st : Store) :
    Eval.assign i name value st = match st.resolve i name.lexeme with
      | some k => (.ok value, st.define k name.lexeme value)
      | none => (.error (.undefinedVariable name), st) := by
  unfold Eval.assign Store.assign
  cases st.resolve i name.lexeme <;> rfl

theorem Eval.links_assign (i : Nat) (name : Token) (value : Value) (st : Store) :
    (Eval.assign i name value st).2.links = st.links := by
  rw [Eval.assign_apply]
  cases st.resolve i name.lexeme with
  | none => rfl
  | some k => exact st.links_define k name.lexeme value

namespace Store

variable {st : Store}

namespace Reachable

/-- Every scope is younger than the one that encloses it. -/
theorem link_lt (h : st.Reachable) {i p : Nat} (hp : st.links[i]? = some (some p)) : p < i := by
  induction h with
  | empty => simp [links] at hp
  | push parent _ hparent ih =>
    rw [links_push, Array.getElem?_push] at hp
    split at hp
    · rename_i hi
      rw [hi, size_links]
      exact hparent p (Option.some.inj hp)
    · exact ih hp
  | pop _ ih =>
    rw [links_pop, Array.getElem?_pop] at hp
    split at hp
    · exact ih hp
    · cases hp
  | define _ _ _ _ ih =>
    rw [links_define] at hp
    exact ih hp
  | assign _ _ _ _ ih =>
    rw [Eval.links_assign] at hp
    exact ih hp

theorem exists_chain (h : st.Reachable) {i : Nat} (hi : i < st.size) : ∃ path, Chain st.links i path := by
  induction i using Nat.strongRecOn with
  | ind i ih =>
    rw [← size_links] at hi
    have hlink : st.links[i]? = some st.links[i] := Array.getElem?_eq_getElem hi
    cases hp : st.links[i] with
    | none => exact ⟨[i], .outermost (hp ▸ hlink)⟩
    | some p =>
      rw [hp] at hlink
      have hlt : p < i := h.link_lt hlink
      rw [size_links] at hi
      obtain ⟨path, hpath⟩ := ih p hlt (by omega)
      exact ⟨i :: path, .link hlink hpath⟩

theorem resolve_eq_nearest (h : st.Reachable) {i : Nat} {path : List Nat} (hc : Chain st.links i path)
    (name : String) : st.resolve i name = st.nearest path name := by
  induction hc with
  | outermost hi => rw [resolve_eq, hi, nearest_cons, nearest_nil]
  | link hi _ ih =>
    rw [resolve_eq, hi, nearest_cons]
    simp only [h.link_lt hi, if_true, ih]

theorem lookup_eq (h : st.Reachable) {i : Nat} {path : List Nat} (hc : Chain st.links i path)
    (name : String) : st.lookup i name = (st.nearest path name).bind (st.binding · name) := by
  rw [lookup, h.resolve_eq_nearest hc]
  rfl

end Reachable

theorem exposes_cons {j i : Nat} {path : List Nat} {name : String} :
    st.Exposes (j :: path) i name ↔ j = i ∨ st.binds j name = false ∧ st.Exposes path i name := by
  constructor
  · rintro ⟨before, after, hpath, hbefore⟩
    cases before with
    | nil => exact .inl (List.cons.inj hpath).1
    | cons k before =>
      obtain ⟨rfl, htail⟩ := List.cons.inj hpath
      refine .inr ⟨hbefore j List.mem_cons_self, before, after, htail, ?_⟩
      exact fun k hk => hbefore k (List.mem_cons_of_mem j hk)
  · rintro (rfl | ⟨hj, before, after, rfl, hbefore⟩)
    · exact ⟨[], path, rfl, List.forall_mem_nil _⟩
    · exact ⟨j :: before, after, rfl, List.forall_mem_cons.mpr ⟨hj, hbefore⟩⟩

theorem exposes_iff_nearest {i : Nat} {name : String} (hi : st.binds i name = true) (path : List Nat) :
    st.Exposes path i name ↔ st.nearest path name = some i := by
  simp only [Exposes, nearest, List.find?_eq_some_iff_append, hi, true_and]
  constructor
  · rintro ⟨before, after, rfl, hbefore⟩
    exact ⟨before, after, rfl, fun k hk => by simp [hbefore k hk]⟩
  · rintro ⟨before, after, rfl, hbefore⟩
    exact ⟨before, after, rfl, fun k hk => by simpa using hbefore k hk⟩

theorem seen_cons (st : Store) (j : Nat) (path : List Nat) (name : String) :
    st.seen (j :: path) name = (st.binding j name).or (st.seen path name) := by
  rw [seen, nearest_cons]
  cases hv : st.binding j name <;> simp [binds, hv, seen]

theorem seen_define_of_exposes {i : Nat} {path : List Nat} {name : String} (hi : i < st.size)
    (h : st.Exposes path i name) (value : Value) :
    (st.define i name value).seen path name = some value := by
  induction path with
  | nil =>
    obtain ⟨before, after, hpath, _⟩ := h
    simp at hpath
  | cons j path ih =>
    rw [seen_cons]
    by_cases hj : j = i
    · rw [hj, binding_define_self hi, Option.some_or]
    · obtain ⟨hnone, htail⟩ := (exposes_cons.mp h).resolve_left hj
      have hbinding : st.binding j name = none := by simpa [binds] using hnone
      rw [binding_define_of_ne (.inl hj), hbinding, Option.none_or, ih htail]

theorem seen_define_of_not_exposes {i : Nat} {path : List Nat} {name other : String}
    (h : other ≠ name ∨ ¬st.Exposes path i name) (value : Value) :
    (st.define i name value).seen path other = st.seen path other := by
  induction path with
  | nil => rfl
  | cons j path ih =>
    rw [seen_cons, seen_cons]
    rcases h with hname | hexposes
    · rw [binding_define_of_ne (.inr hname), ih (.inl hname)]
    · rw [exposes_cons, not_or, not_and] at hexposes
      rw [binding_define_of_ne (.inl hexposes.1)]
      cases hv : st.binding j other with
      | some v => rfl
      | none =>
        by_cases hname : other = name
        · subst hname
          rw [ih (.inr (hexposes.2 (by simp [binds, hv])))]
        · rw [ih (.inl hname)]

theorem get_eq_ok_iff {i : Nat} {name : Token} {value : Value} :
    st.get i name = .ok value ↔ st.lookup i name.lexeme = some value := by
  unfold get
  cases st.lookup i name.lexeme <;> simp

theorem get_eq_error_iff {i : Nat} {name : Token} {e : RuntimeError} :
    st.get i name = .error e ↔ e = .undefinedVariable name ∧ st.lookup i name.lexeme = none := by
  unfold get
  cases st.lookup i name.lexeme <;> simp [eq_comm]

theorem assign_eq_ok_iff {i : Nat} {name : Token} {value : Value} {st' : Store} :
    st.assign i name value = .ok st' ↔
      ∃ k, st.resolve i name.lexeme = some k ∧ st' = st.define k name.lexeme value := by
  unfold assign
  cases st.resolve i name.lexeme <;> simp [eq_comm]

theorem nearest_eq_none_iff {path : List Nat} {name : String} :
    st.nearest path name = none ↔ st.seen path name = none := by
  induction path with
  | nil => simp [seen]
  | cons j path ih =>
    rw [seen_cons, nearest_cons, Option.or_eq_none_iff, ← ih]
    cases hv : st.binding j name <;> simp [binds, hv]

namespace Reachable

theorem lookup_define_of_exposes (h : st.Reachable) {i j : Nat} {path : List Nat} {name : String}
    (hc : Chain st.links j path) (hi : i < st.size) (he : st.Exposes path i name) (value : Value) :
    (st.define i name value).lookup j name = some value := by
  rw [(h.define i name value).lookup_eq (by rwa [links_define])]
  exact seen_define_of_exposes hi he value

theorem lookup_define_of_not_exposes (h : st.Reachable) {i j : Nat} {path : List Nat}
    {name other : String} (hc : Chain st.links j path) (he : other ≠ name ∨ ¬st.Exposes path i name)
    (value : Value) : (st.define i name value).lookup j other = st.lookup j other := by
  rw [(h.define i name value).lookup_eq (by rwa [links_define]), h.lookup_eq hc]
  exact seen_define_of_not_exposes he value

/-- A value that is assigned is seen from where the name meant the same binding, and nowhere else. -/
theorem lookup_assign (h : st.Reachable) {i j : Nat} {path way : List Nat} {name : Token} {value : Value}
    {st' : Store} (hi : Chain st.links i path) (hj : Chain st.links j way)
    (ha : st.assign i name value = .ok st') (other : String) :
    st'.lookup j other =
      if other = name.lexeme ∧ st.nearest way name.lexeme = st.nearest path name.lexeme then some value
      else st.lookup j other := by
  obtain ⟨k, hk, rfl⟩ := assign_eq_ok_iff.mp ha
  have hexposes := exposes_iff_nearest (binds_of_resolve hk) way
  have hmem : k < st.size := size_links st ▸ hi.lt_size (mem_of_resolve hi hk)
  rw [h.resolve_eq_nearest hi] at hk
  rw [hk]
  split
  · rename_i hboth
    rw [hboth.1]
    exact h.lookup_define_of_exposes hj hmem (hexposes.mpr hboth.2) value
  · rename_i hnot
    refine h.lookup_define_of_not_exposes hj ?_ value
    by_cases hname : other = name.lexeme
    · exact .inr fun he => hnot ⟨hname, hexposes.mp he⟩
    · exact .inl hname

end Reachable

end Store

/-- In every store that can come about, the way outward from each scope ends; a name is read and changed at
its first binding on that way; and a change is seen from just those scopes whose way comes to the changed
binding first. -/
theorem reachable_scopes_coherent {st : Store} (h : st.Reachable) :
    (∀ i, i < st.size → ∃ path, Chain st.links i path) ∧
      ∀ i path, Chain st.links i path →
        (∀ name, st.resolve i name = st.nearest path name) ∧
        (∀ name, st.lookup i name = (st.nearest path name).bind (st.binding · name)) ∧
        (∀ (name : Token) value, st.get i name = .ok value ↔ st.lookup i name.lexeme = some value) ∧
        (∀ (name : Token) e, st.get i name = .error e ↔
          e = .undefinedVariable name ∧ st.nearest path name.lexeme = none) ∧
        (∀ (name : Token) value, (∃ st', st.assign i name value = .ok st') ↔
          ∃ k, st.nearest path name.lexeme = some k) ∧
        (∀ (name : Token) value st', st.assign i name value = .ok st' →
          ∀ j way other, Chain st.links j way →
            st'.lookup j other =
              if other = name.lexeme ∧ st.nearest way name.lexeme = st.nearest path name.lexeme
              then some value else st.lookup j other) ∧
        (∀ (name : Token) value e st', Eval.assign i name value st = (.error e, st') → st' = st) ∧
        ∀ name value j way, Chain st.links j way →
          (st.Exposes way i name → (st.define i name value).lookup j name = some value) ∧
          ∀ other, other ≠ name ∨ ¬st.Exposes way i name →
            (st.define i name value).lookup j other = st.lookup j other := by
  refine ⟨fun i hi => h.exists_chain hi, ?_⟩
  intro i path hi
  have hsize : i < st.size := st.size_links ▸ hi.lt_size hi.head_mem
  refine ⟨h.resolve_eq_nearest hi, h.lookup_eq hi, fun _ _ => Store.get_eq_ok_iff, ?_, ?_, ?_, ?_, ?_⟩
  · intro name e
    rw [Store.get_eq_error_iff, Store.nearest_eq_none_iff, h.lookup_eq hi]
    rfl
  · intro name value
    simp only [Store.assign_eq_ok_iff, h.resolve_eq_nearest hi]
    constructor
    · rintro ⟨_, k, hk, -⟩
      exact ⟨k, hk⟩
    · rintro ⟨k, hk⟩
      exact ⟨_, k, hk, rfl⟩
  · intro name value st' ha j way other hj
    exact h.lookup_assign hi hj ha other
  · intro name value e st' ha
    rw [Eval.assign_apply] at ha
    split at ha <;> cases ha
    rfl
  · intro name value j way hj
    exact ⟨fun he => h.lookup_define_of_exposes hj hsize he value,
      fun other he => h.lookup_define_of_not_exposes hj he value⟩

theorem reachable_scopes_coherent_siblings :
    let a : Token := ⟨.identifier, "a", 1, none⟩
    let st : Store := ⟨#[⟨[("a", .nil)], none⟩, ⟨[], some 0⟩, ⟨[("a", .boolean true)], some 0⟩, ⟨[], some 1⟩]⟩
    st.Reachable ∧ Chain st.links 3 [3, 1, 0] ∧ Chain st.links 2 [2, 0] ∧ Chain st.links 1 [1, 0] ∧
      ∃ st', st.assign 3 a (.boolean false) = .ok st' ∧ st'.lookup 1 "a" = some (.boolean false) ∧
        st'.lookup 2 "a" = some (.boolean true) ∧
        (st.define 1 "a" (.string "new")).lookup 3 "a" = some (.string "new") ∧
        (st.define 1 "a" (.string "new")).lookup 2 "a" = some (.boolean true) := by
  intro a st
  have hst : st.Reachable := by
    have hzero := Store.Reachable.empty.push none (by simp)
    have hone := (hzero.define 0 "a" .nil).push (some 0) (by simp)
    have htwo := (hone.push (some 0) (by simp)).define 2 "a" (.boolean true)
    exact htwo.push (some 1) (by simp)
  have hlinks : st.links = #[none, some 0, some 0, some 1] := by simp [Store.links, st]
  have hone : Chain st.links 1 [1, 0] := hlinks ▸ .link rfl (.outermost rfl)
  have htwo : Chain st.links 2 [2, 0] := hlinks ▸ .link rfl (.outermost rfl)
  have hthree : Chain st.links 3 [3, 1, 0] := .link (hlinks ▸ rfl) hone
  obtain ⟨-, -, -, -, hassign, hlookup, -, -⟩ := (reachable_scopes_coherent hst).2 3 _ hthree
  obtain ⟨st', hst'⟩ := (hassign a (.boolean false)).mpr ⟨0, rfl⟩
  have hdefine := ((reachable_scopes_coherent hst).2 1 _ hone).2.2.2.2.2.2.2 "a" (.string "new")
  have hsibling : st.lookup 2 "a" = some (.boolean true) :=
    ((reachable_scopes_coherent hst).2 2 _ htwo).2.1 "a"
  refine ⟨hst, hthree, htwo, hone, st', hst', ?_, ?_, ?_, ?_⟩
  · rw [hlookup a _ st' hst' 1 _ "a" hone]
    rfl
  · rw [hlookup a _ st' hst' 2 _ "a" htwo]
    exact hsibling
  · exact (hdefine 3 _ hthree).1 ⟨[3], [0], rfl, by decide⟩
  · rw [(hdefine 2 _ htwo).2 "a" (.inr ?_)]
    · exact hsibling
    · rintro ⟨before, after, hway, -⟩
      have hmem : 1 ∈ [2, 0] := hway ▸ by simp
      exact absurd hmem (by decide)

end Lox
