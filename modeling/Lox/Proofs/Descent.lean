import Lox.Program

set_option autoImplicit false

namespace Lox.Grammar

namespace Outcome

variable {α β : Type}

theorem after_eq_ok {o : Outcome α} {earlier : List Fault} {value : α} {rest : List Token} :
    o.after earlier = .ok value [] rest ↔ earlier = [] ∧ o = .ok value [] rest := by
  cases o with
  | ok a faults left =>
    simp only [after, ok.injEq, List.append_eq_nil_iff]
    constructor
    · rintro ⟨rfl, ⟨rfl, rfl⟩, rfl⟩
      exact ⟨rfl, rfl, rfl, rfl⟩
    · rintro ⟨rfl, rfl, rfl, rfl⟩
      exact ⟨rfl, ⟨rfl, rfl⟩, rfl⟩
  | stopped => simp [after]

theorem andThen_eq_ok {o : Outcome α} {f : α → List Token → Outcome β} {value : β}
    {rest : List Token} :
    o.andThen f = .ok value [] rest ↔
      ∃ a left, o = .ok a [] left ∧ f a left = .ok value [] rest := by
  cases o with
  | ok a faults left =>
    rw [andThen_ok, after_eq_ok]
    constructor
    · rintro ⟨rfl, h⟩
      exact ⟨a, left, rfl, h⟩
    · rintro ⟨_, _, ho, h⟩
      cases ho
      exact ⟨rfl, h⟩
  | stopped => simp

theorem map_eq_ok {o : Outcome α} {f : α → β} {value : β} {faults : List Fault} {rest : List Token} :
    o.map f = .ok value faults rest ↔ ∃ a, o = .ok a faults rest ∧ f a = value := by
  cases o with
  | ok a faults left =>
    simp only [map_ok, ok.injEq]
    constructor
    · rintro ⟨rfl, rfl, rfl⟩
      exact ⟨a, ⟨rfl, rfl, rfl⟩, rfl⟩
    · rintro ⟨_, ⟨rfl, rfl, rfl⟩, rfl⟩
      exact ⟨rfl, rfl, rfl⟩
  | stopped => simp

theorem map_map {γ : Type} (o : Outcome α) (f : α → β) (g : β → γ) :
    (o.map f).map g = o.map (g ∘ f) := by
  cases o <;> rfl

theorem recovered_eq_ok_iff {o : Outcome α} {value : Option α} {rest : List Token} :
    o.recovered = .ok value [] rest ↔ ∃ a, o = .ok a [] rest ∧ value = some a := by
  cases o with
  | ok a faults left =>
    simp only [recovered, ok.injEq]
    constructor
    · rintro ⟨rfl, rfl, rfl⟩
      exact ⟨a, ⟨rfl, rfl, rfl⟩, rfl⟩
    · rintro ⟨_, ⟨rfl, rfl, rfl⟩, rfl⟩
      exact ⟨rfl, rfl, rfl⟩
  | stopped => simp [recovered]

end Outcome

theorem expect_cons {kind : Kind} {t : Token} (h : t.kind = kind) (problem : Problem)
    (rest : List Token) : expect kind problem (t :: rest) = .ok t [] rest := by
  simp [expect, h]

theorem expect_eq_ok {kind : Kind} {problem : Problem} {ts rest : List Token} {t : Token}
    (h : expect kind problem ts = .ok t [] rest) : ts = t :: rest ∧ t.kind = kind := by
  cases ts with
  | nil => simp [expect] at h
  | cons u us =>
    by_cases hk : u.kind = kind
    · rw [expect_cons hk] at h
      cases h
      exact ⟨rfl, hk⟩
    · simp [expect, hk] at h

theorem tier_within (level : Option Level) (ts : List Token) : (tier level ts).Within true ts :=
  (Reading.tier level ts).property

/-- Induction over the readers of expressions.  What a reader is called on is shorter, except where one
reader hands the same tokens on to the next tighter one. -/
theorem descent_induction {E U P : List Token → Prop} {T : Option Level → List Token → Prop}
    {C : Level → Expr → List Token → Prop}
    (primary : ∀ ts, (∀ us, us.length < ts.length → E us) → P ts)
    (unary : ∀ ts, P ts → (∀ us, us.length < ts.length → U us) → U ts)
    (tightest : ∀ ts, U ts → T none ts)
    (chain : ∀ level left ts, (∀ us, us.length < ts.length → T level.tighter us) →
      (∀ us, us.length < ts.length → ∀ left, C level left us) → C level left ts)
    (tier : ∀ level ts, T level.tighter ts →
      (∀ us, us.length < ts.length → ∀ left, C level left us) → T (some level) ts)
    (assignment : ∀ ts, T (some .or) ts → (∀ us, us.length < ts.length → E us) → E ts)
    (ts : List Token) : E ts ∧ U ts ∧ P ts ∧ (∀ level, T level ts) ∧ ∀ level left, C level left ts := by
  induction hn : ts.length using Nat.strongRecOn generalizing ts with
  | ind n ih =>
    subst hn
    have shorter := fun us (h : us.length < ts.length) => ih us.length h us rfl
    have hP : P ts := primary ts fun us h => (shorter us h).1
    have hU : U ts := unary ts hP fun us h => (shorter us h).2.1
    have hC : ∀ level, ∀ us, us.length < ts.length → ∀ left, C level left us :=
      fun level us h left => (shorter us h).2.2.2.2 level left
    have hT : ∀ level, T level ts := by
      have h0 := tightest ts hU
      have h1 := tier .factor ts h0 (hC _)
      have h2 := tier .term ts h1 (hC _)
      have h3 := tier .comparison ts h2 (hC _)
      have h4 := tier .equality ts h3 (hC _)
      have h5 := tier .and ts h4 (hC _)
      have h6 := tier .or ts h5 (hC _)
      rintro (_ | level)
      · exact h0
      · cases level <;> assumption
    refine ⟨assignment ts (hT _) fun us h => (shorter us h).1, hU, hP, hT, fun level left => ?_⟩
    exact chain level left ts (fun us h => (shorter us h).2.2.2.1 _) (hC level)

theorem expression_induction {E U P : List Token → Prop} {T : Option Level → List Token → Prop}
    {C : Level → Expr → List Token → Prop}
    (primary : ∀ ts, (∀ us, us.length < ts.length → E us) → P ts)
    (unary : ∀ ts, P ts → (∀ us, us.length < ts.length → U us) → U ts)
    (tightest : ∀ ts, U ts → T none ts)
    (chain : ∀ level left ts, (∀ us, us.length < ts.length → T level.tighter us) →
      (∀ us, us.length < ts.length → ∀ left, C level left us) → C level left ts)
    (tier : ∀ level ts, T level.tighter ts →
      (∀ us, us.length < ts.length → ∀ left, C level left us) → T (some level) ts)
    (assignment : ∀ ts, T (some .or) ts → (∀ us, us.length < ts.length → E us) → E ts)
    (ts : List Token) : E ts :=
  (descent_induction primary unary tightest chain tier assignment ts).1

theorem statement_induction {S : List Token → Prop} {D : Bool → List Token → Prop}
    (statement : ∀ ts, (∀ us, us.length < ts.length → S us) →
      (∀ us, us.length < ts.length → D true us) → S ts)
    (declarations : ∀ inBlock ts, S ts → (∀ us, us.length < ts.length → D inBlock us) → D inBlock ts)
    (ts : List Token) : S ts ∧ ∀ inBlock, D inBlock ts := by
  induction hn : ts.length using Nat.strongRecOn generalizing ts with
  | ind n ih =>
    subst hn
    have shorter := fun us (h : us.length < ts.length) => ih us.length h us rfl
    have hS : S ts := statement ts (fun us h => (shorter us h).1) fun us h => (shorter us h).2 true
    exact ⟨hS, fun inBlock => declarations inBlock ts hS fun us h => (shorter us h).2 inBlock⟩

end Lox.Grammar
