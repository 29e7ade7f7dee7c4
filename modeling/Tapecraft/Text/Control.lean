/-! # Control characters of a terminal

Escape, bell, backspace, form feed, delete and the block from U+0080 to U+009F make
a terminal act instead of showing something. In a line that is written to a terminal they
are spelled by their codes, so that a text from outside cannot act on it.
-/
namespace Tapecraft

/-- The characters below U+0080 that act on a terminal. -/
def terminalControls : List Char := ['\x07', '\x08', '\x0c', '\x1b', '\x7f']

def hexPair (n : Nat) : List Char := [Nat.digitChar (n / 16 % 16), Nat.digitChar (n % 16)]

def spelledChar (c : Char) : List Char :=
  if c ∈ terminalControls then ['\\', 'x'] ++ hexPair c.toNat
  else if 0x80 ≤ c.toNat ∧ c.toNat ≤ 0x9f then ['\\', 'u', '\x7b'] ++ hexPair c.toNat ++ ['\x7d']
  else [c]

def spelled (text : String) : String := .ofList (text.toList.flatMap spelledChar)

end Tapecraft
