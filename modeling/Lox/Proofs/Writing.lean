import Lox.Session

set_option autoImplicit false

namespace Lox

/-- The bytes of the texts, each with a newline after it. -/
def lines (texts : List String) : ByteArray := (String.join (texts.map (· ++ "\n"))).toUTF8

@[simp] theorem lines_nil : lines [] = .empty := by
  simp [lines]

theorem lines_singleton (text : String) : lines [text] = (text ++ "\n").toUTF8 := by
  simp [lines]

theorem lines_append (first second : List String) : lines (first ++ second) = lines first ++ lines second := by
  simp [lines]

theorem lines_cons (text : String) (texts : List String) :
    lines (text :: texts) = lines [text] ++ lines texts :=
  lines_append [text] texts

namespace Sink

theorem writeLine_of_unlimited {sink : Sink} (h : sink.room = none) (text : String) :
    sink.writeLine text = (⟨sink.written ++ lines [text], none⟩, true) := by
  simp only [writeLine, write, h, lines_singleton]

theorem foldl_of_unlimited {α : Type} {report : Sink → α → Sink} {text : α → String}
    (hreport : ∀ sink a, report sink a = (sink.writeLine (text a)).1) {sink : Sink}
    (h : sink.room = none) (l : List α) :
    l.foldl report sink = ⟨sink.written ++ lines (l.map text), none⟩ := by
  induction l generalizing sink with
  | nil =>
    obtain ⟨written, room⟩ := sink
    cases h
    simp
  | cons a l ih =>
    rw [List.foldl_cons, hreport, writeLine_of_unlimited h, ih rfl, ByteArray.append_assoc,
      ← lines_cons, List.map_cons]

end Sink

end Lox
