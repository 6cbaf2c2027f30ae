import Lox.Proofs.History

set_option autoImplicit false

namespace Lox

/-- Both sinks have been written the same, and the second one takes only so many bytes. -/
structure Sink.CutAt (limit : Nat) (whole cut : Sink) : Prop where
  unlimited : whole.room = none
  written : cut.written = whole.written.extract 0 limit
  room : cut.room = some (limit - whole.written.size)

namespace Sink.CutAt

variable {limit : Nat}

theorem ofLimit (limit : Nat) : CutAt limit (.ofLimit none) (.ofLimit (some limit)) where
  unlimited := rfl
  written := (ByteArray.extract_eq_empty_iff.mpr (Nat.min_le_right limit 0)).symm
  room := rfl

theorem keptByWriting : Session.KeptByWriting (CutAt limit) := by
  intro whole cut data h
  obtain ⟨hunlimited, hwritten, hroom⟩ := h
  have hextract : (whole.written ++ data).extract 0 limit =
      cut.written ++ data.extract 0 (limit - whole.written.size) := by
    rw [ByteArray.extract_append, hwritten, Nat.zero_sub]
  have hsize : (whole.written ++ data).size = whole.written.size + data.size := ByteArray.size_append
  simp only [Sink.write, hunlimited, hroom]
  split
  · rename_i hfits
    have hall : data.extract 0 (limit - whole.written.size) = data := by
      rw [← Nat.max_eq_left hfits]
      exact ByteArray.extract_zero_max_size
    refine ⟨rfl, ?_, ?_⟩
    · rw [hextract, hall]
    · rw [hsize, Nat.sub_sub]
  · rename_i hfull
    -- Once the limit is reached nothing more is taken, however short.
    have hnone : limit - (whole.written.size + data.size) = 0 := by omega
    refine ⟨rfl, hextract.symm, ?_⟩
    rw [hsize, hnone]

theorem eq {whole cut : Sink} (h : CutAt limit whole cut) :
    cut = ⟨whole.written.extract 0 limit, some (limit - whole.written.size)⟩ := by
  rw [← h.written, ← h.room]

end Sink.CutAt

/-- A session whose messages go to a sink that takes only so many bytes is the same as one with a sink that
takes all of them: it comes to an end with the same records, in which the results and the output of all steps
are, and the same machine.  Its sink has the first bytes of the messages, cut off wherever the limit falls. -/
theorem limited_messages_harmless (steps limit : Nat) (l : List Session.Step) (m : Machine) :
    Session.follow steps l ⟨m, .ofLimit (some limit)⟩ =
      (Session.follow steps l ⟨m, .ofLimit none⟩).map fun (records, last) => (records, ⟨last.machine,
        ⟨last.err.written.extract 0 limit, some (limit - last.err.written.size)⟩⟩) := by
  have halike : Session.Alike (Sink.CutAt limit) ⟨m, .ofLimit none⟩ ⟨m, .ofLimit (some limit)⟩ :=
    ⟨rfl, .ofLimit limit⟩
  have hrel := Session.follow_respects Sink.CutAt.keptByWriting steps l halike
  generalize Session.follow steps l ⟨m, .ofLimit none⟩ = whole at hrel ⊢
  generalize Session.follow steps l ⟨m, .ofLimit (some limit)⟩ = cut at hrel ⊢
  cases hrel with
  | none => rfl
  | @some p q hpq =>
    obtain ⟨records, last⟩ := p
    obtain ⟨records', machine, err⟩ := q
    obtain ⟨heq, hmachine, herr⟩ := hpq
    have hcut : err = _ := herr.eq
    cases heq
    cases hmachine
    rw [hcut, Option.map_some]

end Lox
