set_option autoImplicit false

namespace CiWorkflow.Yaml

def isSpaceOrTab (c : Char) : Bool := c = ' ' || c = '\t'

def isBreak (c : Char) : Bool :=
  c = '\r' || c = '\n' || c = '\u0085' || c = '\u2028' || c = '\u2029'

def isAllowed (c : Char) : Bool :=
  let n := c.toNat
  n = 0x09 || n = 0x0A || n = 0x0D || (0x20 ≤ n && n ≤ 0x7E) || n = 0x85 || (0xA0 ≤ n && n ≤ 0xD7FF) ||
    (0xE000 ≤ n && n ≤ 0xFFFD) || 0x10000 ≤ n

/-- Characters written as they are; the others are written as escapes. -/
def isPrintable (c : Char) : Bool :=
  let n := c.toNat
  n = 0x0A || (0x20 ≤ n && n ≤ 0x7E) || (0xA0 ≤ n && n ≤ 0xD7FF) ||
    (0xE000 ≤ n && n ≤ 0xFFFD && n ≠ 0xFEFF) || 0x10000 ≤ n

def isWordChar (c : Char) : Bool := c.isAlphanum || c = '-' || c = '_'

def endsWord : List Char → Bool
  | [] => true
  | c :: _ => isSpaceOrTab c || isBreak c

end CiWorkflow.Yaml
