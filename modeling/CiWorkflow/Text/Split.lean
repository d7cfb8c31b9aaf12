set_option autoImplicit false

namespace CiWorkflow.Text

/-- The pieces between the places where `p` holds; never an empty list. -/
def splitWhere (p : Char → Bool) : List Char → List (List Char)
  | [] => [[]]
  | c :: rest =>
    if p c then [] :: splitWhere p rest
    else
      match splitWhere p rest with
      | [] => [[c]]
      | first :: others => (c :: first) :: others

def splitAt (sep : Char) : List Char → List (List Char) := splitWhere (· = sep)

def occursIn (pattern : List Char) : List Char → Bool
  | [] => pattern.isEmpty
  | c :: rest => pattern.isPrefixOf (c :: rest) || occursIn pattern rest

def contains (s pattern : String) : Bool := occursIn pattern.toList s.toList

/-- The pieces between leftmost occurrences of `sep` that do not overlap; `skip` characters of the
occurrence found last are still to be passed over. -/
def splitSeqFrom (sep : List Char) : Nat → List Char → List (List Char)
  | _, [] => [[]]
  | skip + 1, _ :: rest => splitSeqFrom sep skip rest
  | 0, c :: rest =>
    if sep.isPrefixOf (c :: rest) then [] :: splitSeqFrom sep (sep.length - 1) rest
    else
      match splitSeqFrom sep 0 rest with
      | [] => [[c]]
      | first :: others => (c :: first) :: others

def splitSeq (sep cs : List Char) : List (List Char) := splitSeqFrom sep 0 cs

def stripPrefix? (pre cs : List Char) : Option (List Char) :=
  if pre.isPrefixOf cs then some (cs.drop pre.length) else none

def stripSuffix? (post cs : List Char) : Option (List Char) :=
  if post.isSuffixOf cs then some (cs.take (cs.length - post.length)) else none

theorem occursIn_iff (pattern cs : List Char) : occursIn pattern cs = true ↔ pattern <:+: cs := by
  induction cs with
  | nil => simp [occursIn, List.infix_nil]
  | cons c rest ih => simp [occursIn, ih, List.infix_cons_iff]

theorem occursIn_of_infix {pattern part cs : List Char} (h : part <:+: cs)
    (ho : occursIn pattern cs = false) : occursIn pattern part = false := by
  rw [Bool.eq_false_iff, ne_eq, occursIn_iff] at ho ⊢
  exact fun hp => ho (hp.trans h)

theorem splitWhere_ne_nil (p : Char → Bool) (cs : List Char) : splitWhere p cs ≠ [] := by
  cases cs with
  | nil => simp [splitWhere]
  | cons c rest =>
    rw [splitWhere]
    split
    · simp
    · split <;> simp

theorem splitSeqFrom_ne_nil (sep : List Char) (skip : Nat) (cs : List Char) :
    splitSeqFrom sep skip cs ≠ [] := by
  induction cs generalizing skip with
  | nil => simp [splitSeqFrom]
  | cons c rest ih =>
    cases skip with
    | succ k => simpa [splitSeqFrom] using ih k
    | zero =>
      rw [splitSeqFrom]
      split
      · simp
      · split <;> simp

end CiWorkflow.Text
