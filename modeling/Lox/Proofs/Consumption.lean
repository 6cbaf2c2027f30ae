import Lox.Proofs.Readers

set_option autoImplicit false

namespace Lox.Grammar

def Persistent (P : List Token → Prop) : Prop := ∀ t ts, t.kind ≠ .eof → P (t :: ts) → P ts

theorem persistent_mem {last : Token} (h : last.kind = .eof) : Persistent (last ∈ ·) := by
  intro t ts ht hm
  rcases List.mem_cons.mp hm with heq | hm
  · exact absurd (heq ▸ h) ht
  · exact hm

variable {α β : Type} {P : List Token → Prop}

namespace Outcome

def Keeps (P : List Token → Prop) : Outcome α → Prop
  | .ok _ faults rest => (∀ f ∈ faults, P f.rest) ∧ P rest
  | .stopped faults fault => (∀ f ∈ faults, P f.rest) ∧ P fault.rest

theorem Keeps.after {o : Outcome α} (h : o.Keeps P) {earlier : List Fault}
    (he : ∀ f ∈ earlier, P f.rest) : (o.after earlier).Keeps P := by
  have happend : ∀ later : List Fault, (∀ f ∈ later, P f.rest) →
      ∀ f ∈ earlier ++ later, P f.rest := by
    intro later hl f hf
    rcases List.mem_append.mp hf with hf | hf
    · exact he f hf
    · exact hl f hf
  cases o with
  | ok value faults rest => exact ⟨happend faults h.1, h.2⟩
  | stopped faults fault => exact ⟨happend faults h.1, h.2⟩

theorem Keeps.andThen {o : Outcome α} (h : o.Keeps P) {f : α → List Token → Outcome β}
    (hf : ∀ value faults rest, o = .ok value faults rest → P rest → (f value rest).Keeps P) :
    (o.andThen f).Keeps P := by
  cases o with
  | ok value faults rest => exact (hf value faults rest rfl h.2).after h.1
  | stopped faults fault => exact h

end Outcome

theorem resume_keeps (hP : Persistent P) {ts : List Token} (h : P ts) : P (resume ts) := by
  induction ts with
  | nil => exact h
  | cons t rest ih =>
    by_cases ht : t.kind = .eof
    · simpa [resume, ht] using h
    · have hr : P rest := hP t rest ht h
      simp only [resume, ht, if_false]
      split
      · exact hr
      · exact ih hr

theorem Outcome.Keeps.recovered (hP : Persistent P) {o : Outcome α} (h : o.Keeps P) :
    o.recovered.Keeps P := by
  cases o with
  | ok value faults rest => exact h
  | stopped faults fault =>
    refine ⟨?_, resume_keeps hP h.2⟩
    intro f hf
    rcases List.mem_append.mp hf with hf | hf
    · exact h.1 f hf
    · rw [List.mem_singleton.mp hf]
      exact h.2

/-- What holds of a list of tokens still holds when a token of these kinds is taken off the front. -/
def Closed (K : Kind → Prop) (Q : List Token → Prop) : Prop := ∀ t ts, K t.kind → Q (t :: ts) → Q ts

/-- Wherever the reader stands, and whatever it blames, is reached by taking off tokens of these kinds. -/
def Moves (K : Kind → Prop) (r : Reader α) (ts : List Token) : Prop :=
  ∀ Q, Closed K Q → Q ts → (r ts).Keeps Q

theorem moves_hereditary (K : Kind → Prop) : Hereditary K (Moves K) where
  ok _ _ := fun _ _ hq => ⟨List.forall_mem_nil _, hq⟩
  stop _ _ := fun _ _ hq => ⟨List.forall_mem_nil _, hq⟩
  congr hrs hs := fun Q hQ hq => hrs _ rfl ▸ hs Q hQ hq
  past hk hrs hs := fun Q hQ hq => hrs _ ▸ hs Q hQ (hQ _ _ hk hq)
  andThen hr hf := fun Q hQ hq => (hr Q hQ hq).andThen fun value faults rest ho hrest =>
    hf value faults rest ho Q hQ hrest
  blame _ _ hk hrs hs := fun Q hQ hq => by
    rw [hrs]
    refine (hs Q hQ (hQ _ _ hk hq)).andThen fun _ _ left _ hl => ⟨?_, hl⟩
    exact List.forall_mem_singleton.mpr hq

theorem moves_recoverable {K : Kind → Prop} (hK : ∀ kind, kind ≠ .eof → K kind) :
    Recoverable (Moves K) :=
  fun _ hr Q hQ hq => (hr Q hQ hq).recovered fun t ts ht => hQ t ts (hK _ ht)

theorem declarations_keeps (hP : Persistent P) (inBlock : Bool) {ts : List Token} (h : P ts) :
    (declarations inBlock ts).Keeps P :=
  (moves_hereditary (· ≠ .eof)).declarations (fun _ hk => hk) (moves_recoverable fun _ hk => hk) inBlock ts
    P hP h

/-- Reading stops at the end of the source or, inside a block, also before a brace that closes it. -/
theorem declarations_end {inBlock : Bool} {ts rest : List Token} {body : List Stmt}
    {faults : List Fault} (h : declarations inBlock ts = .ok body faults rest) :
    (current rest).kind = .eof ∨ (inBlock = true ∧ (current rest).kind = .rightBrace) := by
  induction hn : ts.length using Nat.strongRecOn generalizing ts body faults with
  | ind n ih =>
    cases ts with
    | nil =>
      rw [declarations_nil] at h
      cases h
      exact .inl rfl
    | cons t after =>
      rw [declarations_cons] at h
      split at h
      · rename_i hend
        cases h
        exact hend
      · rename_i hend
        have hw := declaration_within (fun heq => hend (.inl heq)) after
        obtain ⟨first, early, more, hd⟩ :
            ∃ first early more, declaration t after = .ok first early more :=
          Outcome.recovered_eq_ok _
        rw [hd] at h hw
        obtain ⟨later, late, left, hl⟩ := declarations_eq_ok inBlock more
        rw [Outcome.andThen_ok, hl] at h
        cases h
        exact ih more.length (hn ▸ hw.2 rfl) hl rfl

end Lox.Grammar
