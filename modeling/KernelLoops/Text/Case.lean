set_option autoImplicit false

/-! # Upper and lower case

Words are compared with ASCII names apart from case. A letter outside ASCII matters there in two
ways: its other case may be an ASCII letter, and its small letter may take up another number of
bytes. The tables hold the letters of which one is true; the others keep their case. -/

namespace KernelLoops.Text

/-- Capital letters whose small letter takes up another number of bytes, with that letter. -/
def resizedSmallLetters : List (Nat × Nat) :=
  [(0x130, 0x69), (0x23a, 0x2c65), (0x23e, 0x2c66), (0x1e9e, 0xdf), (0x2126, 0x3c9), (0x212a, 0x6b),
    (0x212b, 0xe5), (0x2c62, 0x26b), (0x2c64, 0x27d), (0x2c6d, 0x251), (0x2c6e, 0x271),
    (0x2c6f, 0x250), (0x2c70, 0x252), (0x2c7e, 0x23f), (0x2c7f, 0x240), (0xa78d, 0x265),
    (0xa7aa, 0x266), (0xa7ab, 0x25c), (0xa7ac, 0x261), (0xa7ad, 0x26c), (0xa7ae, 0x26a),
    (0xa7b0, 0x29e), (0xa7b1, 0x287), (0xa7b2, 0x29d), (0xa7c5, 0x282), (0xa7cb, 0x264),
    (0xa7dc, 0x19b)]

/-- Small letters outside ASCII whose capital letter is in it, with that letter. -/
def plainCapitals : List (Nat × Nat) := [(0x131, 0x49), (0x17f, 0x53)]

/-- A character in lower case. -/
def lower (c : Char) : Char :=
  match resizedSmallLetters.find? (·.1 == c.toNat) with
  | some (_, small) => Char.ofNat small
  | none => c.toLower

/-- A character in upper case. -/
def upper (c : Char) : Char :=
  match plainCapitals.find? (·.1 == c.toNat) with
  | some (_, capital) => Char.ofNat capital
  | none => c.toUpper

/-- The bytes of a word in lower case. -/
def lowerBytes (s : String) : List UInt8 :=
  s.toList.flatMap fun c => String.utf8EncodeChar (lower c)

/-- A word in upper case. -/
def upperWord (s : String) : String := String.ofList (s.toList.map upper)

end KernelLoops.Text
