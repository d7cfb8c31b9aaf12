import CiWorkflow.Proofs.Yaml.Position
import CiWorkflow.Yaml.Token.Block

set_option autoImplicit false

namespace CiWorkflow.Yaml

/-- The column that the lines decide: the number of spaces in front of the first one that is not empty. A tab
among them is an error. -/
def firstColumn? (least seen : Nat) : List Cell → Option Nat
  | [] => some (max seen least)
  | c :: rest =>
    if c.char = ' ' then firstColumn? least (max seen (c.column + 1)) rest
    else if c.char = '\t' then none
    else if c.isLineEnd then firstColumn? least (max seen c.column) rest
    else some (max (max seen c.column) least)

def leastColumn (parent : Option Nat) : Nat := max 1 ((parent.map (· + 1)).getD 0)

def contentColumn? (parent : Option Nat) (cs : List Cell) : Option Nat := do
  let (header, rest) ← readHeader? cs
  match header.increment with
  | some n => some (parent.getD 0 + n)
  | none => firstColumn? (leastColumn parent) 0 rest

/-- Lines that are known to start in a column do not depend on those seen before. -/
theorem readBlock_seen (folded : Bool) (chomp : Chomp) (least column seen seen' : Nat) (inLine : Bool) (b : Block)
    (cs : List Cell) : readBlock folded chomp least (some column) seen inLine b cs =
      readBlock folded chomp least (some column) seen' inLine b cs := by
  induction cs generalizing seen seen' inLine b with
  | nil => rfl
  | cons c rest ih =>
    simp only [readBlock, Option.getD_some]
    repeat' split
    all_goals first
      | exact ih ..
      | rfl

theorem le_of_firstColumn {least seen column : Nat} {cs : List Cell} (h : firstColumn? least seen cs = some column) :
    seen ≤ column := by
  induction cs generalizing seen with
  | nil =>
    cases h
    omega
  | cons c rest ih =>
    rw [firstColumn?] at h
    split at h
    · have := ih h
      omega
    split at h
    · cases h
    split at h
    · have := ih h
      omega
    · cases h
      omega

/-- Until a line decides the column, the lines are read as if it had been known. -/
theorem readBlock_undecided (folded : Bool) (chomp : Chomp) (least seen : Nat) (b : Block) (cs : List Cell) :
    readBlock folded chomp least none seen false b cs =
      (firstColumn? least seen cs).bind fun column => readBlock folded chomp least (some column) 0 false b cs := by
  induction cs generalizing seen b with
  | nil => rfl
  | cons c rest ih =>
    have hmax : max (max seen c.column) (c.column + 1) = max seen (c.column + 1) := by omega
    rw [readBlock, firstColumn?]
    simp only [Option.all_none, Bool.true_and, decide_eq_true_eq, hmax, Option.getD_none, Bool.false_eq_true, if_false]
    split
    · rename_i hspace
      rw [ih]
      refine Option.bind_congr fun column hcolumn => ?_
      have hlt : c.column < column := by
        have := le_of_firstColumn hcolumn
        omega
      have hstep : readBlock folded chomp least (some column) 0 false b (c :: rest) =
          readBlock folded chomp least (some column) (max (max 0 c.column) (c.column + 1)) false b rest := by
        simp [readBlock, hspace, hlt]
      rw [hstep]
      exact readBlock_seen ..
    rename_i hspace
    split
    · rfl
    rename_i htab
    split
    · rename_i hend
      rw [ih]
      refine Option.bind_congr fun column _ => ?_
      have hstep : readBlock folded chomp least (some column) 0 false b (c :: rest) =
          readBlock folded chomp least (some column) (max 0 c.column) false
            { b with emptyLines := b.emptyLines ++ [c.char] } rest := by
        simp [readBlock, hspace, htab, hend]
      rw [hstep]
      exact readBlock_seen ..
    · rename_i hend
      simp only [Option.bind_some, readBlock, hspace, htab, hend, decide_false, Bool.and_false, Bool.false_eq_true,
        if_false, Option.getD_some]
      split
      · exact readBlock_seen ..
      · rfl

theorem readBlockScalar_eq (folded : Bool) (parent : Option Nat) (cs : List Cell) :
    readBlockScalar? folded parent cs =
      (contentColumn? parent cs).bind fun column => (readHeader? cs).bind fun r =>
        readBlock folded r.1.chomp (leastColumn parent) (some column) 0 false ⟨[], [], [], false⟩ r.2 := by
  rw [readBlockScalar?, contentColumn?]
  cases readHeader? cs with
  | none => rfl
  | some r =>
    obtain ⟨⟨chomp, increment⟩, rest⟩ := r
    cases increment with
    | none => exact readBlock_undecided folded chomp (leastColumn parent) 0 _ rest
    | some n => rfl

end CiWorkflow.Yaml
