import Lox.Proofs.Restoration

set_option autoImplicit false

namespace Lox

/-- The machine as if the data had been written before everything else. -/
def Machine.onto (data : ByteArray) (m : Machine) : Machine :=
  { m with out := { m.out with written := data ++ m.out.written } }

theorem Sink.write_onto (data before : ByteArray) (room : Option Nat) (more : ByteArray) :
    Sink.write ⟨before ++ data, room⟩ more =
      (⟨before ++ (Sink.write ⟨data, room⟩ more).1.written, (Sink.write ⟨data, room⟩ more).1.room⟩,
        (Sink.write ⟨data, room⟩ more).2) := by
  unfold Sink.write
  cases room with
  | none => simp only [ByteArray.append_assoc]
  | some n => dsimp only; split <;> simp only [ByteArray.append_assoc]

/-- What was written before is kept in front, and nothing else depends on it. -/
def Exec.Appends {α : Type} (x : Exec α) : Prop :=
  ∀ data m, x (m.onto data) = (x m).map fun (r, after) => (r, after.onto data)

namespace Exec.Appends

variable {α β : Type}

theorem bind {x : Exec α} {f : α → Exec β} (hx : x.Appends) (hf : ∀ a, (f a).Appends) :
    (x >>= f).Appends := by
  intro data m
  rw [bind_apply, bind_apply, hx]
  rcases x m with _ | ⟨_ | a, mid⟩
  · rfl
  · rfl
  · exact hf a data mid

theorem print (value : Value) : (Exec.print value).Appends := by
  intro data m
  have hwrite := Sink.write_onto m.out.written data m.out.room (value.text ++ "\n").toUTF8
  simp only [Exec.print, Sink.writeLine, Machine.onto, hwrite]
  rcases Sink.write m.out (value.text ++ "\n").toUTF8 with ⟨out, _ | _⟩ <;> rfl

theorem inNewScope {x : Exec α} (hx : x.Appends) : (Exec.inNewScope x).Appends := by
  intro data m
  have hinner := hx data { m with store := m.store.push (some m.current), current := m.store.size }
  simp only [Machine.onto] at hinner
  simp only [Exec.inNewScope, Exec.inScope, Machine.onto, hinner, Option.map_map]
  rfl

theorem hereditary : Hereditary Appends where
  outOfSteps := fun _ _ => rfl
  pure := fun _ _ => rfl
  bind := .bind
  eval := fun _ _ _ => rfl
  print := .print
  define := fun _ _ _ _ => rfl
  inNewScope := .inNewScope

theorem exists_written {x : Exec α} (hx : x.Appends) {m m' : Machine} {r : Except RuntimeError α}
    (h : x m = some (r, m')) : ∃ data, m'.out.written = m.out.written ++ data := by
  have hm : m = Machine.onto m.out.written { m with out := { m.out with written := .empty } } := by
    simp only [Machine.onto, ByteArray.append_empty]
  rw [hm, hx] at h
  obtain ⟨⟨_, after⟩, _, heq⟩ := Option.map_eq_some_iff.mp h
  cases heq
  exact ⟨after.out.written, rfl⟩

end Exec.Appends

theorem Machine.interpret_appends (steps : Nat) (program : List Stmt) :
    (Machine.interpret steps program).Appends := by
  intro data m
  simp only [Machine.interpret, Exec.Appends.hereditary.executeAll steps program data m]
  rcases Machine.executeAll steps program m with _ | ⟨_ | _, after⟩ <;> rfl

end Lox
