import Mathlib
import Lox.Proofs.Writing

/-!
A sink that takes only so many bytes truncates a run.  The run goes as with a sink that takes everything,
up to the first line that does not fit; there it stops, and nothing happens any more.
-/

set_option autoImplicit false

namespace Lox

structure Printing where
  before : Machine
  text : String

def output (ps : List Printing) : ByteArray := lines (ps.map Printing.text)

theorem output_append (ps qs : List Printing) : output (ps ++ qs) = output ps ++ output qs := by
  simp only [output, List.map_append, lines_append]

@[simp] theorem output_nil : output [] = .empty := lines_nil

variable {α β γ : Type}

def Exec.onward (x : Exec α) (m : Machine) (f : α → Machine → List γ) : List γ :=
  match x m with
  | some (.ok a, after) => f a after
  | _ => []

def Machine.inside (m : Machine) : Machine :=
  { m with store := m.store.push (some m.current), current := m.store.size }

def Machine.outside (scope : Nat) (m : Machine) : Machine :=
  { m with store := m.store.pop, current := scope }

/-- What happens in statements that are executed in turn, each from where the one before ends. -/
def inTurn (events : Stmt → Machine → List γ) (exec : Stmt → Exec Unit) : List Stmt → Machine → List γ
  | [], _ => []
  | s :: rest, m => events s m ++ (exec s).onward m fun _ m => inTurn events exec rest m

/-- All lines that executing a statement prints, in order. -/
def Stmt.prints : Nat → Stmt → Machine → List Printing
  | 0, _, _ => []
  | _ + 1, .print value, m => (Exec.eval value).onward m fun v m => [⟨m, v.text⟩]
  | _ + 1, .expression _, _ => []
  | _ + 1, .declare _ _, _ => []
  | steps + 1, .block body, m => inTurn (Stmt.prints steps) (Stmt.exec steps) body m.inside
  | steps + 1, .ifThen condition body, m => (Exec.eval condition).onward m fun c m =>
    if c.truthy then body.prints steps m else []
  | steps + 1, .ifElse condition body otherwise, m => (Exec.eval condition).onward m fun c m =>
    if c.truthy then body.prints steps m else otherwise.prints steps m
  | steps + 1, .loop condition body, m => (Exec.eval condition).onward m fun c m =>
    if c.truthy then
      body.prints steps m ++ (body.exec steps).onward m fun _ m => (Stmt.loop condition body).prints steps m
    else []

def Machine.prints (steps : Nat) (program : List Stmt) (m : Machine) : List Printing :=
  inTurn (Stmt.prints steps) (Stmt.exec steps) program m

namespace Exec

theorem onward_ok {x : Exec α} {m mid : Machine} {a : α} (h : x m = some (.ok a, mid))
    (f : α → Machine → List γ) : x.onward m f = f a mid := by
  rw [onward, h]

theorem onward_error {x : Exec α} {m mid : Machine} {err : RuntimeError}
    (h : x m = some (.error err, mid)) (f : α → Machine → List γ) : x.onward m f = [] := by
  rw [onward, h]

theorem onward_nil (x : Exec α) (m : Machine) : (x.onward m fun _ _ => ([] : List γ)) = [] := by
  unfold onward
  split <;> rfl

theorem inNewScope_apply (body : Exec α) (m : Machine) :
    inNewScope body m = (body m.inside).map fun (r, after) => (r, after.outside m.current) := by
  simp only [inNewScope, inScope, Option.map_map]
  rfl

end Exec

def Machine.limited (m : Machine) (room : Nat) : Machine :=
  { m with out := { m.out with room := some room } }

/-- The run from `m` has stopped when it was to print `p`, with only the data written. -/
structure Machine.StoppedAt (m : Machine) (p : Printing) (data : ByteArray) (cut : Machine) : Prop where
  out : cut.out = ⟨m.out.written ++ data, some 0⟩
  current : cut.current = m.current
  size : cut.store.size = m.store.size
  scopes : ∀ i, i < m.store.size → cut.store.scopes[i]? = p.before.store.scopes[i]?

/-- What becomes of a run from `m`, which prints `ps` and ends with `r` and `after`, when the sink takes
only so many bytes. -/
structure Truncated (x : Exec α) (ps : List Printing) (m : Machine) (r : Except RuntimeError α)
    (after : Machine) : Prop where
  out : after.out = ⟨m.out.written ++ output ps, none⟩
  current : after.current = m.current
  size : after.store.size = m.store.size
  before : ∀ earlier p later, ps = earlier ++ p :: later →
    p.before.out = ⟨m.out.written ++ output earlier, none⟩
  fits : ∀ room, (output ps).size ≤ room →
    x (m.limited room) = some (r, after.limited (room - (output ps).size))
  stops : ∀ room earlier p later, ps = earlier ++ p :: later → (output earlier).size ≤ room →
    room < (output (earlier ++ [p])).size →
      ∃ cut, x (m.limited room) = some (.error (.output Sink.full), cut) ∧
        m.StoppedAt p ((output ps).extract 0 room) cut

def Exec.Truncates (x : Exec α) (prints : Machine → List Printing) : Prop :=
  ∀ m r after, m.out.room = none → x m = some (r, after) → Truncated x (prints m) m r after

namespace Exec.Truncates

theorem silent {x : Exec α}
    (hkeep : ∀ m r after, x m = some (r, after) →
      after.out = m.out ∧ after.current = m.current ∧ after.store.size = m.store.size)
    (hlimited : ∀ m r after room, x m = some (r, after) → x (m.limited room) = some (r, after.limited room)) :
    x.Truncates fun _ => [] := by
  intro m r after hroom hx
  obtain ⟨hout, hcurrent, hsize⟩ := hkeep m r after hx
  refine ⟨?_, hcurrent, hsize, ?_, ?_, ?_⟩
  · rw [hout, output_nil, ByteArray.append_empty, ← hroom]
  · intro earlier p later h
    simp at h
  · intro room _
    rw [output_nil, ByteArray.size_empty, Nat.sub_zero]
    exact hlimited m r after room hx
  · intro room earlier p later h
    simp at h

theorem pure (a : α) : Exec.Truncates (Pure.pure a) fun _ => [] := by
  refine silent ?_ ?_
  · intro m r after hx
    cases hx
    exact ⟨rfl, rfl, rfl⟩
  · intro m r after room hx
    cases hx
    rfl

theorem define (name : String) (value : Value) : (Exec.define name value).Truncates fun _ => [] := by
  refine silent ?_ ?_
  · intro m r after hx
    cases hx
    exact ⟨rfl, rfl, Store.size_define _ _ _ _⟩
  · intro m r after room hx
    cases hx
    rfl

end Exec.Truncates

theorem Eval.size_bind {x : Eval α} {f : α → Eval β} (hx : ∀ st, (x st).2.size = st.size)
    (hf : ∀ a st, (f a st).2.size = st.size) (st : Store) : ((x >>= f) st).2.size = st.size := by
  rw [Eval.bind_apply, ← hx st]
  rcases x st with ⟨_ | a, mid⟩
  · rfl
  · exact hf a mid

theorem Eval.size_assign (scope : Nat) (name : Token) (value : Value) (st : Store) :
    (Eval.assign scope name value st).2.size = st.size := by
  unfold Eval.assign Store.assign
  cases st.resolve scope name.lexeme with
  | none => rfl
  | some k => exact Store.size_define st k name.lexeme value

theorem Expr.size_eval (scope : Nat) (e : Expr) (st : Store) : (e.eval scope st).2.size = st.size := by
  induction e generalizing st with
  | literal | var => rfl
  | assign name value ih => exact Eval.size_bind ih (Eval.size_assign scope name) st
  | unary op operand ih => exact Eval.size_bind ih (fun _ _ => rfl) st
  | binary op left right ihl ihr => exact Eval.size_bind ihl (fun _ => Eval.size_bind ihr fun _ _ => rfl) st
  | logical op left right ihl ihr =>
    refine Eval.size_bind ihl (fun l mid => ?_) st
    split
    · rfl
    · exact ihr mid
  | grouping inner ih => exact ih st

namespace Exec.Truncates

theorem eval (e : Expr) : (Exec.eval e).Truncates fun _ => [] := by
  refine silent ?_ ?_
  · intro m r after hx
    cases hx
    exact ⟨rfl, rfl, e.size_eval m.current m.store⟩
  · intro m r after room hx
    cases hx
    rfl

theorem print (value : Value) : (Exec.print value).Truncates fun m => [⟨m, value.text⟩] := by
  intro m r after hroom hx
  have hone : output [⟨m, value.text⟩] = (value.text ++ "\n").toUTF8 := lines_singleton value.text
  rw [Exec.print, Sink.writeLine_of_unlimited hroom] at hx
  cases hx
  have hsplit : ∀ {earlier p later}, [(⟨m, value.text⟩ : Printing)] = earlier ++ p :: later →
      earlier = [] ∧ p = ⟨m, value.text⟩ := by
    intro earlier p later h
    cases earlier with
    | nil =>
      cases h
      exact ⟨rfl, rfl⟩
    | cons q earlier => simp at h
  refine ⟨rfl, rfl, rfl, ?_, ?_, ?_⟩
  · intro earlier p later h
    obtain ⟨rfl, rfl⟩ := hsplit h
    rw [output_nil, ByteArray.append_empty, ← hroom]
  · intro room hfits
    rw [hone] at hfits ⊢
    simp only [Exec.print, Sink.writeLine, Sink.write, Machine.limited, hfits, if_true, lines_singleton]
  · intro room earlier p later h hearlier hstops
    obtain ⟨rfl, rfl⟩ := hsplit h
    rw [List.nil_append, hone] at hstops
    have hfull : ¬(value.text ++ "\n").toUTF8.size ≤ room := by omega
    rw [hone]
    let cut : Machine :=
      { m with out := ⟨m.out.written ++ (value.text ++ "\n").toUTF8.extract 0 room, some 0⟩ }
    refine ⟨cut, ?_, ⟨rfl, rfl, rfl, fun _ _ => rfl⟩⟩
    simp only [Exec.print, Sink.writeLine, Sink.write, Machine.limited, hfull, if_false, cut]

end Exec.Truncates

theorem extract_output_left {ps qs : List Printing} {room : Nat} (h : room ≤ (output ps).size) :
    (output (ps ++ qs)).extract 0 room = (output ps).extract 0 room := by
  have hnone : (output qs).extract (0 - (output ps).size) (room - (output ps).size) = .empty := by
    rw [ByteArray.extract_eq_empty_iff]
    omega
  rw [output_append, ByteArray.extract_append, hnone, ByteArray.append_empty]

theorem extract_output_right {ps qs : List Printing} {room : Nat} (h : (output ps).size ≤ room) :
    (output (ps ++ qs)).extract 0 room = output ps ++ (output qs).extract 0 (room - (output ps).size) := by
  have hall : (output ps).extract 0 room = output ps := by
    rw [← Nat.max_eq_left h]
    exact ByteArray.extract_zero_max_size
  rw [output_append, ByteArray.extract_append, hall, Nat.zero_sub]

theorem split_append {ps qs earlier later : List Printing} {p : Printing}
    (h : ps ++ qs = earlier ++ p :: later) :
    (∃ rest, ps = earlier ++ p :: rest) ∨ ∃ start, earlier = ps ++ start ∧ qs = start ++ p :: later := by
  rcases List.append_eq_append_iff.mp h with ⟨start, he, hq⟩ | ⟨rest, hp, hq⟩
  · exact .inr ⟨start, he, hq⟩
  · cases rest with
    | nil => exact .inr ⟨[], by simpa using hp.symm, by simpa using hq.symm⟩
    | cons q rest =>
      cases hq
      exact .inl ⟨rest, hp⟩

namespace Truncated

variable {x : Exec α} {f : α → Exec β} {ps qs : List Printing} {m mid after : Machine}

theorem bind_error {err : RuntimeError} (h : Truncated x ps m (.error err) after) :
    Truncated (x >>= f) ps m (.error err) after := by
  refine ⟨h.out, h.current, h.size, h.before, ?_, ?_⟩
  · intro room hfits
    rw [Exec.bind_apply, h.fits room hfits]
  · intro room earlier p later hps hearlier hstops
    obtain ⟨cut, hx, hcut⟩ := h.stops room earlier p later hps hearlier hstops
    exact ⟨cut, by rw [Exec.bind_apply, hx], hcut⟩

/-- The limit is reached in the first part, or the second part runs with what room is left. -/
theorem bind_ok {a : α} {r : Except RuntimeError β} (hx : Truncated x ps m (.ok a) mid)
    (hf : Truncated (f a) qs mid r after) : Truncated (x >>= f) (ps ++ qs) m r after := by
  have hwritten : mid.out.written = m.out.written ++ output ps := by rw [hx.out]
  refine ⟨?_, hf.current.trans hx.current, hf.size.trans hx.size, ?_, ?_, ?_⟩
  · rw [hf.out, hwritten, output_append, ByteArray.append_assoc]
  · intro earlier p later h
    rcases split_append h with ⟨rest, hp⟩ | ⟨start, rfl, hq⟩
    · exact hx.before earlier p rest hp
    · rw [hf.before start p later hq, hwritten, output_append, ByteArray.append_assoc]
  · intro room hfits
    rw [output_append, ByteArray.size_append] at hfits ⊢
    rw [Exec.bind_apply, hx.fits room (by omega)]
    dsimp only
    rw [hf.fits _ (by omega), Nat.sub_sub]
  · intro room earlier p later h hearlier hstops
    rcases split_append h with ⟨rest, hp⟩ | ⟨start, rfl, hq⟩
    · obtain ⟨cut, hcut, hstopped⟩ := hx.stops room earlier p rest hp hearlier hstops
      have hroom : room ≤ (output ps).size := by
        rw [hp, ← List.singleton_append, ← List.append_assoc, output_append, ByteArray.size_append]
        omega
      refine ⟨cut, ?_, ?_⟩
      · rw [Exec.bind_apply, hcut]
      · rw [extract_output_left hroom]
        exact hstopped
    · rw [output_append, ByteArray.size_append] at hearlier
      rw [List.append_assoc, output_append, ByteArray.size_append] at hstops
      obtain ⟨cut, hcut, hstopped⟩ :=
        hf.stops (room - (output ps).size) start p later hq (by omega) (by omega)
      refine ⟨cut, ?_, ?_⟩
      · rw [Exec.bind_apply, hx.fits room (by omega)]
        exact hcut
      · obtain ⟨hout, hcurrent, hsize, hscopes⟩ := hstopped
        refine ⟨?_, hcurrent.trans hx.current, hsize.trans hx.size, fun i hi => hscopes i (hx.size ▸ hi)⟩
        rw [hout, hwritten, extract_output_right (by omega), ByteArray.append_assoc]

end Truncated

namespace Exec.Truncates

theorem bind {x : Exec α} {f : α → Exec β} {ps : Machine → List Printing}
    {qs : α → Machine → List Printing} (hx : x.Truncates ps) (hf : ∀ a, (f a).Truncates (qs a)) :
    (x >>= f).Truncates fun m => ps m ++ x.onward m qs := by
  intro m r after hroom hr
  rw [Exec.bind_apply] at hr
  rcases hfirst : x m with _ | ⟨_ | a, mid⟩
  · rw [hfirst] at hr
    cases hr
  · rw [hfirst] at hr
    cases hr
    have h := hx m _ _ hroom hfirst
    dsimp only
    rw [onward_error hfirst, List.append_nil]
    exact h.bind_error
  · rw [hfirst] at hr
    have h := hx m _ _ hroom hfirst
    have hmid : mid.out.room = none := by rw [h.out]
    dsimp only
    rw [onward_ok hfirst]
    exact h.bind_ok (hf a mid r after hmid hr)

theorem bind_silent {x : Exec α} {f : α → Exec β} (hx : x.Truncates fun _ => [])
    (hf : ∀ a, (f a).Truncates fun _ => []) : (x >>= f).Truncates fun _ => [] := by
  have h := bind hx hf
  simp only [onward_nil, List.append_nil] at h
  exact h

theorem forM {f : Stmt → Exec Unit} {ps : Stmt → Machine → List Printing}
    (h : ∀ s, (f s).Truncates (ps s)) (body : List Stmt) :
    (body.forM f).Truncates (inTurn ps f body) := by
  induction body with
  | nil => exact pure ()
  | cons s rest ih => exact bind (h s) fun _ => ih

theorem inNewScope {x : Exec α} {ps : Machine → List Printing} (h : x.Truncates ps) :
    (Exec.inNewScope x).Truncates fun m => ps m.inside := by
  intro m r after hroom hr
  rw [inNewScope_apply] at hr
  obtain ⟨⟨_, inner⟩, hx, heq⟩ := Option.map_eq_some_iff.mp hr
  cases heq
  obtain ⟨hout, _, hsize, hbefore, hfits, hstops⟩ := h m.inside r inner hroom hx
  have hinside : m.inside.store.size = m.store.size + 1 := Store.size_push _ _
  have hlimited : ∀ room, (m.limited room).inside = m.inside.limited room := fun _ => rfl
  refine ⟨hout, rfl, ?_, hbefore, ?_, ?_⟩
  · simp only [Machine.outside, Store.size_pop, hsize, hinside, Nat.add_sub_cancel]
  · intro room hroom
    rw [inNewScope_apply, hlimited, hfits room hroom]
    rfl
  · intro room earlier p later hps hearlier hlate
    obtain ⟨cut, hcut, hstopped⟩ := hstops room earlier p later hps hearlier hlate
    refine ⟨cut.outside m.current, ?_, hstopped.out, rfl, ?_, ?_⟩
    · rw [inNewScope_apply, hlimited, hcut]
      rfl
    · simp only [Machine.outside, Store.size_pop, hstopped.size, hinside, Nat.add_sub_cancel]
    · intro i hi
      have hlt : i < cut.store.scopes.size - 1 := by
        have hcutsize : cut.store.scopes.size = m.store.size + 1 := hstopped.size.trans hinside
        omega
      have hpop : (cut.store.pop).scopes[i]? = cut.store.scopes[i]? := by
        rw [Store.pop, Array.getElem?_pop, if_pos hlt]
      exact hpop.trans (hstopped.scopes i (by omega))

end Exec.Truncates

theorem Stmt.exec_truncates (steps : Nat) (s : Stmt) : (s.exec steps).Truncates (s.prints steps) := by
  induction steps generalizing s with
  | zero =>
    intro m r after _ hx
    cases hx
  | succ steps ih =>
    cases s with
    | print value => exact (Exec.Truncates.eval value).bind Exec.Truncates.print
    | expression value => exact (Exec.Truncates.eval value).bind_silent fun _ => .pure ()
    | declare name initial =>
      cases initial with
      | none => exact .define _ _
      | some e => exact (Exec.Truncates.eval e).bind_silent fun v => .define _ v
    | block body => exact (Exec.Truncates.forM ih body).inNewScope
    | ifThen condition body =>
      refine (Exec.Truncates.eval condition).bind fun c => ?_
      cases c.truthy with
      | true => exact ih body
      | false => exact .pure ()
    | ifElse condition body otherwise =>
      refine (Exec.Truncates.eval condition).bind fun c => ?_
      cases c.truthy with
      | true => exact ih body
      | false => exact ih otherwise
    | loop condition body =>
      refine (Exec.Truncates.eval condition).bind fun c => ?_
      cases c.truthy with
      | true => exact (ih body).bind fun _ => ih (.loop condition body)
      | false => exact .pure ()

theorem Machine.executeAll_truncates (steps : Nat) (program : List Stmt) :
    (Machine.executeAll steps program).Truncates (Machine.prints steps program) :=
  .forM (Stmt.exec_truncates steps) program

/-- There is a line that reaches past the given number of bytes, if the lines have more bytes than that. -/
theorem exists_crossing {room : Nat} (ps : List Printing) (h : room < (output ps).size) :
    ∃ earlier p later, ps = earlier ++ p :: later ∧ (output earlier).size ≤ room ∧
      room < (output (earlier ++ [p])).size := by
  induction ps using List.reverseRecOn with
  | nil => simp at h
  | append_singleton ps p ih =>
    by_cases hps : room < (output ps).size
    · obtain ⟨earlier, q, later, rfl, hearlier, hq⟩ := ih hps
      exact ⟨earlier, q, later ++ [p], by simp, hearlier, hq⟩
    · exact ⟨ps, p, [], rfl, Nat.le_of_not_lt hps, h⟩

/-- A sink that takes only `room` more bytes truncates a run and does nothing else to it.  A run whose
output fits is the same in all.  Otherwise it ends when the first line that does not fit is to be printed:
the sink has the first bytes of the output, the scopes that were there before are as they were just before
that line, and the machine is back at the outermost scope. -/
theorem interpret_truncated {steps : Nat} {program : List Stmt} {m after : Machine}
    {r : Except RuntimeError Unit} (hunlimited : m.out.room = none)
    (h : Machine.interpret steps program m = some (r, after)) :
    let ps := Machine.prints steps program m
    after.out = ⟨m.out.written ++ output ps, none⟩ ∧
      (∀ earlier p later, ps = earlier ++ p :: later →
        p.before.out = ⟨m.out.written ++ output earlier, none⟩) ∧
      ∀ room,
        ((output ps).size ≤ room → Machine.interpret steps program (m.limited room) =
          some (r, after.limited (room - (output ps).size))) ∧
        (room < (output ps).size → ∃ earlier p later, ps = earlier ++ p :: later ∧
          (output earlier).size ≤ room ∧ room < (output (earlier ++ [p])).size ∧
          ∃ cut, Machine.interpret steps program (m.limited room) =
              some (.error (.output Sink.full), cut) ∧
            cut.out = ⟨m.out.written ++ (output ps).extract 0 room, some 0⟩ ∧
            (∀ i, i < m.store.size → cut.store.scopes[i]? = p.before.store.scopes[i]?) ∧
            cut.store.size = m.store.size ∧ cut.current = Machine.globals) := by
  intro ps
  obtain ⟨⟨r', ended⟩, hx, heq⟩ := Option.map_eq_some_iff.mp h
  have htruncated := Machine.executeAll_truncates steps program m r' ended hunlimited hx
  refine ⟨?_, htruncated.before, ?_⟩
  · cases r' <;> cases heq <;> exact htruncated.out
  · intro room
    constructor
    · intro hfits
      have hx' := htruncated.fits room hfits
      rw [Machine.interpret, hx']
      cases r' <;> cases heq <;> rfl
    · intro hroom
      obtain ⟨earlier, p, later, hps, hearlier, hp⟩ := exists_crossing ps hroom
      obtain ⟨cut, hcut, hstopped⟩ := htruncated.stops room earlier p later hps hearlier hp
      refine ⟨earlier, p, later, hps, hearlier, hp, { cut with current := Machine.globals }, ?_,
        hstopped.out, hstopped.scopes, hstopped.size, rfl⟩
      rw [Machine.interpret, hcut]
      rfl

theorem interpret_truncated_inside_character :
    let a : Token := ⟨.identifier, "a", 1, none⟩
    let m : Machine := ⟨⟨#[⟨[("a", .nil)], none⟩]⟩, Machine.globals, {}⟩
    let program := [.block [.expression (.assign a (.literal (.boolean true))),
      .print (.literal (.string "é"))], .expression (.assign a (.literal .nil))]
    m.out.room = none ∧ (∃ after, Machine.interpret 2 program m = some (.ok (), after)) ∧
      ∃ cut, Machine.interpret 2 program (m.limited 1) = some (.error (.output Sink.full), cut) ∧
        cut.out.written = ⟨#[0xc3]⟩ ∧ cut.store.scopes[0]? = some ⟨[("a", .boolean true)], none⟩ ∧
        cut.current = Machine.globals := by
  intro a m program
  let mid : Machine := ⟨⟨#[⟨[("a", .boolean true)], none⟩, ⟨[], some 0⟩]⟩, 1, {}⟩
  let after : Machine := ⟨⟨#[⟨[("a", .nil)], none⟩]⟩, Machine.globals, ⟨⟨#[0xc3, 0xa9, 0x0a]⟩, none⟩⟩
  have hx : Machine.interpret 2 program m = some (.ok (), after) := by with_unfolding_all rfl
  have hps : Machine.prints 2 program m = [⟨mid, "é"⟩] := by with_unfolding_all rfl
  have hbytes : output [⟨mid, "é"⟩] = ⟨#[0xc3, 0xa9, 0x0a]⟩ := by decide
  obtain ⟨earlier, p, later, hsplit, hearlier, hp, cut, hcut, hout, hscopes, -, hcurrent⟩ :=
    ((interpret_truncated rfl hx).2.2 1).2 (by rw [hps, hbytes]; decide)
  rw [hps] at hsplit hout
  rw [hbytes] at hout
  have hmid : p = ⟨mid, "é"⟩ := by
    cases earlier with
    | nil => exact (List.cons.inj hsplit).1.symm
    | cons q earlier => simp at hsplit
  refine ⟨rfl, ⟨after, hx⟩, cut, hcut, ?_, ?_, hcurrent⟩
  · rw [hout]
    rfl
  · rw [hscopes 0 (by decide), hmid]
    rfl

end Lox
