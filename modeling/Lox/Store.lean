import Lox.RuntimeError

set_option autoImplicit false

namespace Lox

structure Scope where
  bindings : List (String × Value) := []
  parent : Option Nat := none
  deriving Repr, Inhabited

namespace Scope

def get? (s : Scope) (name : String) : Option Value := s.bindings.lookup name

def binds (s : Scope) (name : String) : Bool := (s.get? name).isSome

/-- Binds a name, in place of any binding it had. -/
def set (s : Scope) (name : String) (value : Value) : Scope :=
  { s with bindings := (name, value) :: s.bindings.filter (·.1 ≠ name) }

@[simp] theorem get?_set_self (s : Scope) (name : String) (value : Value) :
    (s.set name value).get? name = some value := by
  simp [set, get?]

theorem lookup_filter_ne {name other : String} (h : other ≠ name) (l : List (String × Value)) :
    (l.filter (·.1 ≠ name)).lookup other = l.lookup other := by
  induction l with
  | nil => rfl
  | cons b rest ih =>
    obtain ⟨key, value⟩ := b
    by_cases hk : key = name
    · have hne : (other == key) = false := beq_false_of_ne (hk ▸ h)
      rw [List.filter_cons_of_neg (by simpa using hk), ih, List.lookup_cons, hne]
    · rw [List.filter_cons_of_pos (by simpa using hk), List.lookup_cons, List.lookup_cons, ih]

theorem get?_set_of_ne (s : Scope) {name other : String} (h : other ≠ name) (value : Value) :
    (s.set name value).get? other = s.get? other := by
  rw [get?, set, List.lookup_cons, beq_false_of_ne h]
  exact lookup_filter_ne h s.bindings

@[simp] theorem parent_set (s : Scope) (name : String) (value : Value) :
    (s.set name value).parent = s.parent := rfl

end Scope

/-- Scopes by number, in the order in which they were opened. -/
structure Store where
  scopes : Array Scope := #[]
  deriving Repr, Inhabited

namespace Store

/-- Opens an empty scope; its number is the number of scopes before. -/
def push (st : Store) (parent : Option Nat) : Store := ⟨st.scopes.push { parent }⟩

def pop (st : Store) : Store := ⟨st.scopes.pop⟩

def size (st : Store) : Nat := st.scopes.size

def define (st : Store) (i : Nat) (name : String) (value : Value) : Store :=
  ⟨st.scopes.modify i (·.set name value)⟩

@[simp] theorem size_push (st : Store) (parent : Option Nat) : (st.push parent).size = st.size + 1 :=
  Array.size_push _

@[simp] theorem size_pop (st : Store) : st.pop.size = st.size - 1 := Array.size_pop

@[simp] theorem size_define (st : Store) (i : Nat) (name : String) (value : Value) :
    (st.define i name value).size = st.size := Array.size_modify

/-- The scope on the way outward from `i` that binds the name first.  A scope is enclosed by an older one
only, so that every such way ends. -/
def resolve (st : Store) (i : Nat) (name : String) : Option Nat :=
  match st.scopes[i]? with
  | none => none
  | some s =>
    if s.binds name then some i
    else match s.parent with
      | some p => if p < i then st.resolve p name else none
      | none => none
termination_by i

def lookup (st : Store) (i : Nat) (name : String) : Option Value :=
  (st.resolve i name).bind fun k => st.scopes[k]?.bind (·.get? name)

def get (st : Store) (i : Nat) (name : Token) : Except RuntimeError Value :=
  match st.lookup i name.lexeme with
  | some value => .ok value
  | none => .error (.undefinedVariable name)

def assign (st : Store) (i : Nat) (name : Token) (value : Value) : Except RuntimeError Store :=
  match st.resolve i name.lexeme with
  | some k => .ok (st.define k name.lexeme value)
  | none => .error (.undefinedVariable name)

end Store

end Lox
