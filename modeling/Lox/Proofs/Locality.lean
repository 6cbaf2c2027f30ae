import Lox.Proofs.Consumption

/-!
How far readers look.  On two lists of tokens that begin alike a reader does the same up to where it ends,
as long as it ends, with the token it ends at in view, in the part that they share.  Beyond a fault of a
chosen kind nothing is promised, so that faults which are found early can be compared even where what is
read after them differs.
-/

set_option autoImplicit false

namespace Lox.Grammar

variable {α β : Type}

namespace Outcome

variable {P Q : List Token → Prop} {o : Outcome α}

theorem Keeps.mono (h : o.Keeps P) (hPQ : ∀ ts, P ts → Q ts) : o.Keeps Q := by
  cases o with
  | ok value faults rest => exact ⟨fun f hf => hPQ _ (h.1 f hf), hPQ _ h.2⟩
  | stopped faults fault => exact ⟨fun f hf => hPQ _ (h.1 f hf), hPQ _ h.2⟩

theorem Keeps.of_mem_faults (h : o.Keeps P) {f : Fault} (hf : f ∈ o.faults) : P f.rest := by
  cases o with
  | ok value faults rest => exact h.1 f hf
  | stopped faults fault =>
    rcases List.mem_append.mp hf with hf | hf
    · exact h.1 f hf
    · rw [List.mem_singleton.mp hf]
      exact h.2

theorem Keeps.of_rest (h : o.Keeps P) : P o.rest := by
  cases o <;> exact h.2

@[simp] theorem faults_after (o : Outcome α) (earlier : List Fault) :
    (o.after earlier).faults = earlier ++ o.faults := by
  cases o <;> simp [after, faults]

@[simp] theorem rest_after (o : Outcome α) (earlier : List Fault) : (o.after earlier).rest = o.rest := by
  cases o <;> rfl

@[simp] theorem faults_recovered (o : Outcome α) : o.recovered.faults = o.faults := by
  cases o <;> rfl

end Outcome

theorem closed_suffix (K : Kind → Prop) (ts : List Token) : Closed K (· <:+ ts) :=
  fun t us _ h => (List.suffix_cons t us).trans h

/-- The list with `v` in place of `u` at its end. -/
def graft (u v ts : List Token) : List Token := ts.take (ts.length - u.length) ++ v

def Fault.graft (u v : List Token) (f : Fault) : Fault := { f with rest := Grammar.graft u v f.rest }

def Outcome.graft (u v : List Token) : Outcome α → Outcome α
  | .ok value faults rest => .ok value (faults.map (Fault.graft u v)) (Grammar.graft u v rest)
  | .stopped faults fault => .stopped (faults.map (Fault.graft u v)) (fault.graft u v)

@[simp] theorem graft_append (u v x : List Token) : graft u v (x ++ u) = x ++ v := by
  simp [graft]

@[simp] theorem graft_nil (v ts : List Token) : graft [] v ts = ts ++ v := by
  simp [graft]

theorem current_graft {u ts : List Token} (h : u.length < ts.length) (v : List Token) :
    current (graft u v ts) = current ts := by
  cases ts with
  | nil => cases h
  | cons t ts => simp [graft, current, Nat.succ_sub (Nat.le_of_lt_succ h)]

theorem Fault.error_graft {u : List Token} {f : Fault} (h : u.length < f.rest.length) (v : List Token) :
    (f.graft u v).error = f.error :=
  congrArg (SyntaxError.mk · f.problem) (current_graft h v)

theorem exists_append_of_suffix {u x ts : List Token} (h : ts <:+ x ++ u) (hu : u.length < ts.length) :
    ∃ y, y ≠ [] ∧ ts = y ++ u := by
  obtain ⟨y, rfl⟩ := List.suffix_of_suffix_length_le (List.suffix_append x u) h (Nat.le_of_lt hu)
  refine ⟨y, ?_, rfl⟩
  rintro rfl
  exact Nat.lt_irrefl _ hu

/-- All problems but a bad target stop the reading of a statement. -/
def serious (problem : Problem) : Bool := problem ≠ .assignmentTarget

theorem serious_eq_message (problem : Problem) :
    serious problem = decide (problem.message ≠ "Invalid assignment target.") := by
  cases problem <;> decide

namespace Outcome

variable {bad : Problem → Bool} {u v : List Token} {o o' : Outcome α}

def first (bad : Problem → Bool) (o : Outcome α) : Option Fault := o.faults.find? (bad ·.problem)

theorem first_after (o : Outcome α) (earlier : List Fault) :
    (o.after earlier).first bad = (earlier.find? (bad ·.problem)).or (o.first bad) := by
  rw [first, faults_after, List.find?_append, first]

theorem first_andThen_of_some {g : α → Reader β} {f : Fault} (h : o.first bad = some f) :
    (o.andThen g).first bad = some f := by
  cases o with
  | ok value faults rest =>
    have hfaults : faults.find? (bad ·.problem) = some f := h
    rw [andThen_ok, first_after, hfaults, Option.some_or]
  | stopped faults fault => exact h

@[simp] theorem first_map (o : Outcome α) (f : α → β) : (o.map f).first bad = o.first bad := by
  cases o <;> rfl

@[simp] theorem first_recovered (o : Outcome α) : o.recovered.first bad = o.first bad := by
  rw [first, faults_recovered, first]

@[simp] theorem first_graft (o : Outcome α) :
    (o.graft u v).first bad = (o.first bad).map (Fault.graft u v) := by
  cases o with
  | ok value faults rest => exact List.find?_map
  | stopped faults fault =>
    have hfaults : ((stopped faults fault : Outcome α).graft u v).faults =
        (faults ++ [fault]).map (Fault.graft u v) := by simp [graft, Outcome.faults]
    rw [first, hfaults]
    exact List.find?_map

@[simp] theorem graft_after (o : Outcome α) (earlier : List Fault) :
    (o.after earlier).graft u v = (o.graft u v).after (earlier.map (Fault.graft u v)) := by
  cases o <;> simp [after, graft]

/-- The outcome ends, or first goes wrong in the chosen way, with at most so many tokens left. -/
structure EndsBy (bad : Problem → Bool) (n : Nat) (o : Outcome α) : Prop where
  fault : ∀ f, o.first bad = some f → f.rest.length ≤ n
  rest : o.rest.length ≤ n

theorem Keeps.endsBy {n : Nat} (h : o.Keeps (·.length ≤ n)) : o.EndsBy bad n where
  fault _ hf := h.of_mem_faults (List.mem_of_find?_eq_some hf)
  rest := h.of_rest

/-- The outcomes `o` before `u` and `o'` before `v` agree, up to the first fault of the chosen kind, if what
they agree on ends before `u`. -/
structure Local (bad : Problem → Bool) (u v : List Token) (o o' : Outcome α) : Prop where
  fault : ∀ f, o.first bad = some f → u.length < f.rest.length → o'.first bad = some (f.graft u v)
  whole : o.first bad = none → u.length < o.rest.length → o' = o.graft u v

namespace Local

theorem of_eq (h : o' = o.graft u v) : o.Local bad u v o' where
  fault f hf _ := by rw [h, first_graft, hf, Option.map_some]
  whole _ _ := h

theorem of_endsBy (h : o.EndsBy bad u.length) : o.Local bad u v o' where
  fault f hf hu := absurd hu (Nat.not_lt.mpr (h.fault f hf))
  whole _ hu := absurd hu (Nat.not_lt.mpr h.rest)

theorem andThen {g g' : α → Reader β} (h : o.Local bad u v o')
    (hends : ∀ value faults rest, o = .ok value faults rest → (g value rest).EndsBy bad rest.length)
    (hg : ∀ value faults rest, o = .ok value faults rest → u.length < rest.length →
      (g value rest).Local bad u v (g' value (Grammar.graft u v rest))) :
    (o.andThen g).Local bad u v (o'.andThen g') := by
  cases o with
  | stopped faults fault =>
    refine ⟨fun f hf hu => first_andThen_of_some (h.fault f hf hu), fun hnone hu => ?_⟩
    rw [h.whole hnone hu]
    rfl
  | ok value faults rest =>
    have hend := hends value faults rest rfl
    have hwhole : faults.find? (bad ·.problem) = none → u.length < rest.length →
        o'.andThen g' = (g' value (Grammar.graft u v rest)).after (faults.map (Fault.graft u v)) := by
      intro hnone hu
      rw [h.whole hnone hu]
      rfl
    rw [andThen_ok]
    constructor
    · intro f hf hu
      rw [first_after] at hf
      cases hfirst : faults.find? (bad ·.problem) with
      | some f' =>
        rw [hfirst, Option.some_or] at hf
        exact first_andThen_of_some (h.fault f (hfirst.trans hf) hu)
      | none =>
        rw [hfirst, Option.none_or] at hf
        have hrest : u.length < rest.length := Nat.lt_of_lt_of_le hu (hend.fault f hf)
        have hearlier : (faults.map (Fault.graft u v)).find? (bad ·.problem) = none :=
          List.find?_map.trans (congrArg _ hfirst)
        rw [hwhole hfirst hrest, first_after, hearlier, Option.none_or]
        exact (hg value faults rest rfl hrest).fault f hf hu
    · intro hnone hu
      rw [first_after, Option.or_eq_none_iff] at hnone
      rw [rest_after] at hu
      have hrest : u.length < rest.length := Nat.lt_of_lt_of_le hu hend.rest
      rw [hwhole hnone.1 hrest, (hg value faults rest rfl hrest).whole hnone.2 hu, graft_after]

end Local

end Outcome

theorem resume_graft (u v : List Token) {x : List Token} (h : u.length < (resume (x ++ u)).length) :
    resume (x ++ v) = graft u v (resume (x ++ u)) := by
  induction x with
  | nil => exact absurd h (Nat.not_lt.mpr (resume_suffix u).length_le)
  | cons t x ih =>
    simp only [List.cons_append, resume] at h ⊢
    by_cases he : t.kind = .eof
    · simp only [he, if_true]
      exact (graft_append u v (t :: x)).symm
    · simp only [he, if_false] at h ⊢
      cases x with
      | nil =>
        have hu : resume u <:+ u := resume_suffix u
        split at h
        · exact absurd h (Nat.lt_irrefl _)
        · exact absurd h (Nat.not_lt.mpr hu.length_le)
      | cons t' x =>
        have hcurrent : current (t' :: x ++ v) = current (t' :: x ++ u) := rfl
        rw [hcurrent]
        split at h
        · rename_i hs
          rw [if_pos hs, if_pos hs, graft_append]
        · rename_i hs
          rw [if_neg hs, if_neg hs]
          exact ih h

def Local (bad : Problem → Bool) (u v : List Token) (r : Reader α) (ts : List Token) : Prop :=
  Moves (fun _ => True) r ts ∧
    ∀ x, x ≠ [] → ts = x ++ u → (r (x ++ u)).Local bad u v (r (x ++ v))

theorem Moves.within {K : Kind → Prop} {r : Reader α} {ts : List Token} (h : Moves K r ts) :
    (r ts).Keeps (· <:+ ts) :=
  h _ (closed_suffix K ts) (List.suffix_refl ts)

theorem Moves.endsBy {K : Kind → Prop} {r : Reader α} {ts : List Token} {bad : Problem → Bool}
    (h : Moves K r ts) : (r ts).EndsBy bad ts.length :=
  (h.within.mono fun _ hs => hs.length_le).endsBy

/-- The condition on what is noted is needed: a bad target is noted late, when more has been read. -/
theorem local_hereditary (bad : Problem → Bool) (hbad : bad .assignmentTarget = false)
    (u v : List Token) : Hereditary (fun _ => True) (Local bad u v) where
  ok value ts := by
    refine ⟨(moves_hereditary _).ok value ts, fun x _ _ => .of_eq ?_⟩
    simp [Outcome.graft]
  stop hp ts := by
    refine ⟨(moves_hereditary _).stop hp ts, fun x _ _ => .of_eq ?_⟩
    simp [Outcome.graft, Fault.graft]
  congr hrs hs := by
    refine ⟨(moves_hereditary _).congr hrs hs.1, fun x hx heq => ?_⟩
    subst heq
    obtain ⟨t, x, rfl⟩ := List.exists_cons_of_ne_nil hx
    rw [hrs _ rfl, hrs (t :: x ++ v) rfl]
    exact hs.2 _ hx rfl
  past hk hrs hs := by
    refine ⟨(moves_hereditary _).past hk hrs hs.1, fun x hx heq => ?_⟩
    obtain ⟨t, x, rfl⟩ := List.exists_cons_of_ne_nil hx
    obtain ⟨rfl, rfl⟩ := List.cons.inj heq
    rw [List.cons_append, List.cons_append, hrs, hrs]
    cases x with
    | nil => exact .of_endsBy hs.1.endsBy
    | cons t' x => exact hs.2 _ (List.cons_ne_nil _ _) rfl
  andThen hr hf := by
    refine ⟨(moves_hereditary _).andThen hr.1 fun value faults rest ho => (hf value faults rest ho).1,
      fun x hx heq => ?_⟩
    subst heq
    refine (hr.2 x hx rfl).andThen (fun value faults rest ho => (hf value faults rest ho).1.endsBy) ?_
    intro value faults rest ho hu
    have hsuffix := hr.1.within
    rw [ho] at hsuffix
    obtain ⟨y, hy, rfl⟩ := exists_append_of_suffix hsuffix.2 hu
    rw [graft_append]
    exact (hf value faults _ ho).2 y hy rfl
  blame target he hk hrs hs := by
    refine ⟨(moves_hereditary _).blame target he hk hrs hs.1, fun x hx heq => ?_⟩
    obtain ⟨t, x, rfl⟩ := List.exists_cons_of_ne_nil hx
    obtain ⟨rfl, rfl⟩ := List.cons.inj heq
    rw [List.cons_append, List.cons_append, hrs, hrs]
    have hvalue : (expression (x ++ u)).Local bad u v (expression (x ++ v)) := by
      cases x with
      | nil => exact .of_endsBy hs.1.endsBy
      | cons t' x => exact hs.2 _ (List.cons_ne_nil _ _) rfl
    have hfirst : ∀ us rest, (Outcome.ok target [⟨us, .assignmentTarget⟩] rest).first bad = none :=
      fun us rest => by simp [Outcome.first, Outcome.faults, hbad]
    refine hvalue.andThen (fun value faults rest _ => ⟨fun f hf => ?_, Nat.le_refl _⟩) ?_
    · rw [hfirst] at hf
      cases hf
    · intro value faults rest _ _
      refine .of_eq ?_
      simp [Outcome.graft, Fault.graft, graft, Nat.succ_sub]

theorem local_recoverable (bad : Problem → Bool) (u v : List Token) : Recoverable (Local bad u v) := by
  intro α r t ts ht hr
  refine ⟨moves_recoverable (fun _ _ => trivial) ht hr.1, fun x hx heq => ?_⟩
  have hlocal := hr.2 x hx heq
  constructor
  · intro f hf hu
    rw [Outcome.first_recovered] at hf ⊢
    exact hlocal.fault f hf hu
  · intro hnone hu
    rw [Outcome.first_recovered] at hnone
    dsimp only at hu ⊢
    cases ho : r (x ++ u) with
    | ok value faults rest =>
      rw [ho] at hlocal hu hnone
      rw [hlocal.whole hnone hu]
      rfl
    | stopped faults fault =>
      rw [ho] at hlocal hu hnone
      have hresumed : u.length < (resume fault.rest).length := hu
      have hfault : u.length < fault.rest.length :=
        Nat.lt_of_lt_of_le hresumed (resume_suffix fault.rest).length_le
      have hsuffix := hr.1.within
      rw [heq, ho] at hsuffix
      obtain ⟨y, -, hy⟩ := exists_append_of_suffix hsuffix.2 hfault
      have hresume := resume_graft u v (hy ▸ hresumed)
      rw [hlocal.whole hnone hfault]
      simp [Outcome.graft, Outcome.recovered, Fault.graft, hy, hresume]

theorem declarations_local (bad : Problem → Bool) (hbad : bad .assignmentTarget = false)
    (u v : List Token) {x : List Token} (hx : x ≠ []) (inBlock : Bool) :
    (declarations inBlock (x ++ u)).Local bad u v (declarations inBlock (x ++ v)) :=
  ((local_hereditary bad hbad u v).declarations (fun _ _ => trivial) (local_recoverable bad u v) inBlock _).2
    x hx rfl

end Lox.Grammar
