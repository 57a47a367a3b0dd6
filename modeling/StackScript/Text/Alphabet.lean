/-!
Character classes: which characters may stand in names, and which are written as they are inside quotes.
ASCII is classified exactly; beyond it the tables list the scripts that a source text may use.
-/
namespace StackScript.Text

/-- Closed ranges of code points in ascending order. -/
abbrev Ranges := List (Nat × Nat)

def Ranges.has (rs : Ranges) (c : Char) : Bool :=
  rs.any fun r => r.1 ≤ c.toNat && c.toNat ≤ r.2

def letters : Ranges :=
  [(0x41, 0x5A), (0x61, 0x7A), (0xAA, 0xAA), (0xB5, 0xB5), (0xBA, 0xBA), (0xC0, 0xD6), (0xD8, 0xF6),
   (0xF8, 0x2C1), (0x370, 0x374), (0x376, 0x377), (0x37A, 0x37D), (0x37F, 0x37F), (0x386, 0x386),
   (0x388, 0x38A), (0x38C, 0x38C), (0x38E, 0x3A1), (0x3A3, 0x3F5), (0x3F7, 0x481), (0x48A, 0x52F),
   (0x531, 0x556), (0x561, 0x587), (0x5D0, 0x5EA), (0x620, 0x657), (0x904, 0x939), (0xE01, 0xE30),
   (0x10A0, 0x10C5), (0x10D0, 0x10FA), (0x1E00, 0x1F15), (0x2160, 0x2188), (0x3005, 0x3007),
   (0x3041, 0x3096), (0x30A1, 0x30FA), (0x3400, 0x4DBF), (0x4E00, 0x9FFF), (0xAC00, 0xD7A3),
   (0xF900, 0xFA6D), (0xFB00, 0xFB06), (0x20000, 0x2A6DF)]

/-- Digits of every script and the other number signs. -/
def numbers : Ranges :=
  [(0x30, 0x39), (0xB2, 0xB3), (0xB9, 0xB9), (0xBC, 0xBE), (0x660, 0x669), (0x6F0, 0x6F9),
   (0x966, 0x96F), (0xE50, 0xE59), (0x2070, 0x2070), (0x2074, 0x2079), (0x2080, 0x2089),
   (0x2150, 0x215F), (0x2189, 0x2189), (0x2460, 0x249B), (0xFF10, 0xFF19)]

/-- Controls, combining marks, blanks other than the space, format and private characters. -/
def unprintable : Ranges :=
  [(0x0, 0x1F), (0x7F, 0xA0), (0xAD, 0xAD), (0x300, 0x36F), (0x483, 0x489), (0x591, 0x5BD),
   (0x600, 0x605), (0x61C, 0x61C), (0x64B, 0x65F), (0x1680, 0x1680), (0x180E, 0x180E),
   (0x2000, 0x200F), (0x2028, 0x202F), (0x205F, 0x206F), (0x20D0, 0x20F0), (0x3000, 0x3000),
   (0xE000, 0xF8FF), (0xFE00, 0xFE0F), (0xFE20, 0xFE2F), (0xFEFF, 0xFEFF), (0xFFF0, 0xFFFB),
   (0xFFFE, 0xFFFF), (0xE0000, 0x10FFFF)]

def isLetter (c : Char) : Bool := letters.has c

def isLetterOrNumber (c : Char) : Bool := letters.has c || numbers.has c

def isDigit (c : Char) : Bool := '0' ≤ c && c ≤ '9'

def isPrintable (c : Char) : Bool := !unprintable.has c

/-- A name starts with a letter or an underscore. -/
def startsName (c : Char) : Bool := isLetter c || c = '_'

def continuesName (c : Char) : Bool := isLetterOrNumber c || c = '_'

end StackScript.Text
