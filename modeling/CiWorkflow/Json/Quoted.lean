set_option autoImplicit false

namespace CiWorkflow.Json

def hexDigit (n : Nat) : Char := if n < 10 then .ofNat ('0'.toNat + n) else .ofNat ('a'.toNat + n - 10)

def escape (c : Char) : List Char :=
  match c.toNat with
  | 0x22 => ['\\', '"']
  | 0x5C => ['\\', '\\']
  | 0x08 => ['\\', 'b']
  | 0x09 => ['\\', 't']
  | 0x0A => ['\\', 'n']
  | 0x0C => ['\\', 'f']
  | 0x0D => ['\\', 'r']
  | n => if n < 0x20 then ['\\', 'u', '0', '0', hexDigit (n / 16), hexDigit (n % 16)] else [c]

def quoted (cs : List Char) : List Char := '"' :: cs.flatMap escape ++ ['"']

end CiWorkflow.Json
