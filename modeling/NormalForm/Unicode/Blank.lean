import NormalForm.Unicode.Span

namespace NormalForm.Unicode

/-- The property White_Space. Zero-width spaces and the byte order mark do not have it. -/
def blank : List Span :=
  [ ⟨0x0009, 0x000D, 1⟩, ⟨0x0020, 0x0020, 1⟩, ⟨0x0085, 0x0085, 1⟩, ⟨0x00A0, 0x00A0, 1⟩,
    ⟨0x1680, 0x1680, 1⟩, ⟨0x2000, 0x200A, 1⟩, ⟨0x2028, 0x2029, 1⟩, ⟨0x202F, 0x202F, 1⟩,
    ⟨0x205F, 0x205F, 1⟩, ⟨0x3000, 0x3000, 1⟩ ]

def isBlank (c : Char) : Bool := holds blank c

end NormalForm.Unicode
