/-!
# Similar names

The suggestion that follows an unknown name: the visible name at the least edit distance, if that
distance is small against the length of the name. Ties go to the name that sorts first.
-/

namespace DCompiler.Text

/-- The next row of the edit-distance table, for the row's character `c` and the cells of the
previous row. `left` is the cell just written, `above` the previous row's cell over it. -/
def distanceCells (c : Char) : List Char → List Nat → Nat → Nat → List Nat
  | d :: ds, diagonal :: cells, left, above =>
    let cost := if c = d then above else above + 1
    let cell := min cost (min (left + 1) (diagonal + 1))
    cell :: distanceCells c ds cells cell diagonal
  | _, _, _, _ => []

def distanceRow (target : List Char) (row : List Nat) (c : Char) : List Nat :=
  match row with
  | [] => []
  | first :: cells => (first + 1) :: distanceCells c target cells (first + 1) first

def editDistance (a b : String) : Nat :=
  let target := b.toList
  (a.toList.foldl (distanceRow target) (List.range (target.length + 1))).getLastD 0

/-- Whether `other` is close enough to `name` to be offered instead. The bound counts bytes. -/
def isSimilar (name other : String) : Bool :=
  editDistance other name ≤ max name.utf8ByteSize 3 / 3

def closer (name a b : String) : Bool :=
  let da := editDistance a name
  let db := editDistance b name
  da < db || (da == db && a < b)

def closestMatch (name : String) (candidates : List String) : Option String :=
  (candidates.filter fun c => c != name && isSimilar name c).foldl
    (fun best c =>
      match best with
      | none => some c
      | some b => if closer name c b then some c else some b)
    none

end DCompiler.Text
