set_option autoImplicit false

namespace Lox

structure Sink where
  written : ByteArray := .empty
  room : Option Nat := none

namespace Sink

def ofLimit (limit : Option Nat) : Sink := ⟨.empty, limit⟩

/-- Takes as much as there is room for and tells whether that was everything. -/
def write (sink : Sink) (data : ByteArray) : Sink × Bool :=
  match sink.room with
  | none => (⟨sink.written ++ data, none⟩, true)
  | some room =>
    if data.size ≤ room then (⟨sink.written ++ data, some (room - data.size)⟩, true)
    else (⟨sink.written ++ data.extract 0 room, some 0⟩, false)

def full : String := "sink full"

def writeLine (sink : Sink) (line : String) : Sink × Bool := sink.write (line ++ "\n").toUTF8

end Sink

end Lox
