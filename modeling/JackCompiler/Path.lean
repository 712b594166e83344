/-!
# Paths

A path is kept as it was typed: a lead, and the pieces between its slashes. Empty pieces and `.`
name nothing and are passed over when the path is read, but they are shown where they stand. A path
is a text, so one whose bytes are no UTF-8 is not among them.
-/

namespace JackCompiler

/-- Where a path starts. -/
inductive Path.Lead
  /-- It begins with a slash. -/
  | root
  /-- It begins with the piece `.`. -/
  | current
  /-- It begins with the first of its other pieces. -/
  | relative
  deriving DecidableEq, Repr

/-- A path: where it starts, and the pieces after that. -/
structure Path where
  lead : Path.Lead
  pieces : List String
  deriving DecidableEq, Repr

namespace Path

/-- The pieces of a text between its slashes. -/
def split (cs : List Char) : List String :=
  (cs.splitOn '/').map String.ofList

/-- The path that a text spells. -/
def ofString (s : String) : Path :=
  match s.toList with
  | '/' :: rest => ⟨.root, split rest⟩
  | cs =>
    match split cs with
    | "." :: pieces => ⟨.current, pieces⟩
    | pieces => ⟨.relative, pieces⟩

/-- The path as it is shown. -/
def text (p : Path) : String :=
  match p.lead with
  | .root => "/" ++ "/".intercalate p.pieces
  | .current => "/".intercalate ("." :: p.pieces)
  | .relative => "/".intercalate p.pieces

theorem intercalate_split (cs : List Char) : "/".intercalate (split cs) = String.ofList cs := by
  apply String.toList_inj.1
  simp [split, Function.comp_def, List.intercalate_splitOn]

/-- **A path is shown as it was typed.** -/
@[simp]
theorem text_ofString (s : String) : (ofString s).text = s := by
  unfold ofString
  split
  · next rest h =>
    rw [text, intercalate_split, ← String.toList_inj]
    simp [h]
  · next cs _ =>
    split
    · next pieces h =>
      rw [text, ← h, intercalate_split, String.ofList_toList]
    · rw [text, intercalate_split, String.ofList_toList]

/-- Does the piece name something? -/
def isProper (piece : String) : Bool :=
  piece != "" && piece != "."

/-- The pieces up to the last one that names something. -/
def trimEnd (pieces : List String) : List String :=
  (pieces.reverse.dropWhile fun piece => !isProper piece).reverse

/-- The pieces from the first one that names something. -/
def trimStart (pieces : List String) : List String :=
  pieces.dropWhile fun piece => !isProper piece

/-- The components of the path: its lead, and the pieces that name something. -/
def components (p : Path) : List String :=
  let names := p.pieces.filter isProper
  match p.lead with
  | .root => "/" :: names
  | .current => "." :: names
  | .relative => names

/-- Does one component come before another? They are ordered by the codes of their characters. -/
def componentLt (a b : String) : Bool :=
  a.toList.lex b.toList fun c d => decide (c.toNat < d.toNat)

/-- The order of paths: component by component. -/
def le (p q : Path) : Bool :=
  !q.components.lex p.components componentLt

/-- The last component, if it is a name. -/
def fileName? (p : Path) : Option String :=
  match (trimEnd p.pieces).getLast? with
  | some ".." => none
  | name => name

/-- A file name before and after its last dot. A dot at the beginning belongs to the name. -/
def splitExtension (name : String) : String × Option String :=
  let after := name.toList.reverse.takeWhile (· != '.')
  match name.toList.reverse.dropWhile (· != '.') with
  | [] | [_] => (name, none)
  | _ :: before => (String.ofList before.reverse, some (String.ofList after.reverse))

/-- The extension of the file name. -/
def extension? (p : Path) : Option String :=
  p.fileName?.bind fun name => (splitExtension name).2

/-- The path with another file name. What follows the old one goes away. -/
def withFileName (p : Path) (name : String) : Path :=
  { p with pieces := (trimEnd p.pieces).dropLast ++ [name] }

/-- The path without the extension at its end. The dot before it stays. -/
def dropExtension (p : Path) : Path :=
  match p.pieces.getLast?.map splitExtension with
  | some (stem, some _) => p.withFileName (stem ++ ".")
  | _ => p

/-- The path with another extension, or with one if it had none. The old one is taken off first; a
path that has no file name then, such as one that ends in `..`, gets none. -/
def withExtension (p : Path) (extension : String) : Path :=
  let p := p.dropExtension
  match p.fileName? with
  | none => p
  | some name => p.withFileName ((splitExtension name).1 ++ "." ++ extension)

/-- The path without its last component. -/
def parent? (p : Path) : Option Path :=
  match trimEnd p.pieces with
  | [] => if p.lead = .current then some ⟨.relative, []⟩ else none
  | pieces => some { p with pieces := trimEnd pieces.dropLast }

/-- The path itself, its parent, the parent of that, and so on, as long as they are not empty. -/
def ancestors (p : Path) : List Path :=
  let pieces := trimEnd p.pieces
  let below := (List.range' 1 pieces.length).reverse.filterMap fun n =>
    let front := pieces.take n
    if front.getLast?.any isProper then some { p with pieces := front } else none
  if p.lead = .relative then below else below ++ [{ p with pieces := [] }]

/-- The pieces after those that name the given components, if the pieces begin with them. -/
def dropComponents : List String → List String → Option (List String)
  | pieces, [] => some pieces
  | [], _ :: _ => none
  | piece :: pieces, name :: names =>
    if !isProper piece then dropComponents pieces (name :: names)
    else if piece = name then dropComponents pieces names
    else none

/-- The path from a directory on, if the path begins with the components of the directory. -/
def relativeTo? (p base : Path) : Option Path :=
  if base.components.isEmpty then some { p with pieces := trimEnd p.pieces }
  else if p.lead = base.lead then
    (dropComponents p.pieces (base.pieces.filter isProper)).map fun rest =>
      ⟨.relative, trimEnd (trimStart rest)⟩
  else none

/-- The path below a directory. A path from the root stays as it is. -/
def join (dir p : Path) : Path :=
  if p.lead = .root then p
  else
    let slash := if dir.text = "" || dir.text.toList.getLast? = some '/' then "" else "/"
    ofString (dir.text ++ slash ++ p.text)

end Path

end JackCompiler
