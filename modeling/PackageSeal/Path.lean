import PackageSeal.Text.Split
import PackageSeal.Bytes

/-!
# Paths

A path is a text whose pieces are separated by `/`. What a piece stands for depends on its place:
an empty first piece before a separator is the root, and `.` means something only at the front.
`components` lists what is meant; two spellings with the same components are the same place, but the
text itself is kept, because messages show it.
-/

namespace PackageSeal

/-- A path as written. -/
@[ext] structure Path where
  text : String
deriving DecidableEq

/-- What one piece of a path stands for. -/
inductive Component where
  | root
  | here
  | up
  | name (text : String)
deriving DecidableEq

namespace Component

/-- A text whose order is that of components: the root, the two dotted ones, then names by their
octets. -/
def key : Component → String
  | root => "0"
  | here => "1"
  | up => "2"
  | name text => "3" ++ text

end Component

namespace Path

/-- The pieces of a path. -/
def pieces (p : Path) : List String :=
  (Text.split '/' p.text.toList).map String.ofList

/-- What a piece after the first stands for, if anything. -/
def inner (piece : String) : Option Component :=
  if piece = "" ∨ piece = "." then none
  else if piece = ".." then some .up
  else some (.name piece)

/-- What the first piece stands for, if anything; `more` tells whether another follows. -/
def leading (piece : String) (more : Bool) : Option Component :=
  if piece = "" then (if more then some .root else none)
  else if piece = "." then some .here
  else inner piece

/-- The pieces, each with what it stands for. -/
def marked (p : Path) : List (String × Option Component) :=
  match p.pieces with
  | [] => []
  | first :: rest => (first, leading first (!rest.isEmpty)) :: rest.map fun s => (s, inner s)

/-- What the path means, step by step. -/
def components (p : Path) : List Component :=
  p.marked.filterMap Prod.snd

/-- The order key: paths are compared component by component. -/
def key (p : Path) : List String :=
  p.components.map Component.key

/-- Whether the path starts at the root. -/
def isAbsolute (p : Path) : Bool :=
  p.text.toList.head? == some '/'

/-- The path `other`, seen from `p`: an absolute one stands for itself. -/
def join (p other : Path) : Path :=
  if other.isAbsolute ∨ p.text = "" then other
  else if p.text.toList.getLast? = some '/' then ⟨p.text ++ other.text⟩
  else ⟨p.text ++ "/" ++ other.text⟩

/-- The final name, if the path ends in one. -/
def lastName? (p : Path) : Option String :=
  match p.components.getLast? with
  | some (.name text) => some text
  | _ => none

/-- The text of marked pieces. A lone root is written `/`. -/
def ofMarked (pieces : List (String × Option Component)) : Path :=
  match pieces with
  | [(_, some .root)] => ⟨"/"⟩
  | _ => ⟨String.ofList (Text.joinWith '/' (pieces.map fun piece => piece.1.toList))⟩

/-- Marked pieces without the meaningless ones at the end. -/
def trimEnd (pieces : List (String × Option Component)) : List (String × Option Component) :=
  (pieces.reverse.dropWhile fun piece => piece.2.isNone).reverse

/-- The path without its last component; none for the root and for the empty path. -/
def parent? (p : Path) : Option Path :=
  match p.components.getLast? with
  | none | some .root => none
  | some _ => some (ofMarked (trimEnd (trimEnd p.marked).dropLast))

/-- The path with its final name replaced, or with the name put after it if it has none. -/
def sibling (p : Path) (name : String) : Path :=
  match p.lastName?, p.parent? with
  | some _, some parent => parent.join ⟨name⟩
  | _, _ => p.join ⟨name⟩

/-- The path with a text put after its last character. -/
def extend (p : Path) (suffix : String) : Path :=
  ⟨p.text ++ suffix⟩

/-- Marked pieces after the given components; none if they start otherwise. -/
def after? :
    List Component → List (String × Option Component) → Option (List (String × Option Component))
  | [], pieces => some pieces
  | _ :: _, [] => none
  | c :: cs, (_, none) :: pieces => after? (c :: cs) pieces
  | c :: cs, (_, some d) :: pieces => if c = d then after? cs pieces else none

/-- The rest of the path below `root`, as written; none if the path is not below it. -/
def below? (root p : Path) : Option Path := do
  let rest ← after? root.components p.marked
  let body := if root.components.isEmpty then rest
    else rest.dropWhile fun piece => piece.2.isNone
  pure (ofMarked (trimEnd body))

/-- Paths in the order of their components. -/
def sort (paths : List Path) : List Path :=
  let keyed := paths.map fun p => (p.key, p)
  (keyed.mergeSort fun a b => !decide (b.1 < a.1)).map Prod.snd

end Path

end PackageSeal
