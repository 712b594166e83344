import JackCompiler.Syntax.Reader.Body
import JackCompiler.Token.Cursor
/-!
# Reading a class, token by token

A class is read by a fold over its tokens. The first token that cannot stand where it does is the
error; if there is none and the class is not closed at the end, the end is.
-/

namespace JackCompiler

open Token (Kind)

namespace Reader

/-- A declaration of variables that is being read, from behind the keyword that begins it. -/
inductive VarDecReader
  /-- The type must come. -/
  | varType
  /-- A name must come, after the given ones, last first. -/
  | varName (type : VarType) (names : List String)
  /-- A name was read; `,` or `;` must come. -/
  | separator (type : VarType) (names : List String)

/-- Takes a token. The semicolon that ends the declaration is part of it. -/
def VarDecReader.step : VarDecReader → Kind → Step VarDecReader VarDec
  | .varType, k =>
    match varType? k with
    | some type => .more (.varName type [])
    | none => .stuck
  | .varName type names, .name s => .more (.separator type (s :: names))
  | .separator type names, .symbol ',' => .more (.varName type names)
  | .separator type names, .symbol ';' => .finished ⟨type, names.reverse⟩
  | _, _ => .stuck

/-- A signature that is being read, from behind the keyword that begins it. Its parameters stand
last first. -/
inductive SignatureReader
  /-- `void` or the type of the result must come. -/
  | resultType (kind : SubroutineKind)
  /-- The name must come. -/
  | subroutineName (kind : SubroutineKind) (result : Option VarType)
  /-- `(` must come. -/
  | parenthesis (s : Signature)
  /-- `(` was read; a parameter or `)` must come. -/
  | parameters (s : Signature)
  /-- The type of a parameter must come. -/
  | parameterType (s : Signature)
  /-- The name of a parameter must come. -/
  | parameterName (s : Signature) (type : VarType)
  /-- A parameter was read; `,` or `)` must come. -/
  | separator (s : Signature)

namespace SignatureReader

/-- The signature is complete. -/
def close (s : Signature) : Step SignatureReader Signature :=
  .finished { s with parameters := s.parameters.reverse }

/-- Takes the token that should be the type of a parameter. -/
def stepType (s : Signature) (k : Kind) : Step SignatureReader Signature :=
  match varType? k with
  | some type => .more (.parameterName s type)
  | none => .stuck

/-- Takes a token. The parenthesis that ends the parameters is part of the signature. -/
def step : SignatureReader → Kind → Step SignatureReader Signature
  | .resultType kind, .keyword .void => .more (.subroutineName kind none)
  | .resultType kind, k =>
    match varType? k with
    | some type => .more (.subroutineName kind (some type))
    | none => .stuck
  | .subroutineName kind result, .name name => .more (.parenthesis ⟨kind, result, name, []⟩)
  | .parenthesis s, .symbol '(' => .more (.parameters s)
  | .parameters s, .symbol ')' => close s
  | .parameters s, k => stepType s k
  | .parameterType s, k => stepType s k
  | .parameterName s type, .name name =>
    .more (.separator { s with parameters := ⟨type, name⟩ :: s.parameters })
  | .separator s, .symbol ',' => .more (.parameterType s)
  | .separator s, .symbol ')' => close s
  | _, _ => .stuck

end SignatureReader

/-- A class up to the member that is being read, members last first. -/
structure ClassHead where
  name : String
  vars : List (ClassVarKind × VarDec)
  subroutines : List Subroutine

/-- A class that is being read. -/
inductive ClassReader
  /-- `class` must come. -/
  | start
  /-- The name of the class must come. -/
  | className
  /-- `{` must come. -/
  | classBrace (name : String)
  /-- A member or the end of the class must come. -/
  | members (c : ClassHead)
  /-- A variable declaration of the class is being read. -/
  | classVar (c : ClassHead) (kind : ClassVarKind) (d : VarDecReader)
  /-- A signature is being read. -/
  | signature (c : ClassHead) (s : SignatureReader)
  /-- The signature was read; `{` must come. -/
  | bodyBrace (c : ClassHead) (s : Signature)
  /-- A declaration of local variables, a statement or the end of the body must come. -/
  | bodyStart (c : ClassHead) (s : Signature) (before : List VarDec)
  /-- A declaration of local variables is being read. -/
  | localVar (c : ClassHead) (s : Signature) (before : List VarDec) (d : VarDecReader)
  /-- The body is being read. -/
  | body (c : ClassHead) (s : Signature) (locals : List VarDec) (b : BodyReader)
  /-- The class was read. -/
  | closed (c : Class)

namespace ClassReader

/-- Takes a token where a member or the end of the class must come. Variables are declared before
the first subroutine. -/
def stepMember (c : ClassHead) : Kind → Option ClassReader
  | .symbol '}' => some (.closed ⟨c.name, c.vars.reverse, c.subroutines.reverse⟩)
  | .keyword .static =>
    if c.subroutines.isEmpty then some (.classVar c .static .varType) else none
  | .keyword .field => if c.subroutines.isEmpty then some (.classVar c .field .varType) else none
  | .keyword .constructor => some (.signature c (.resultType .constructor))
  | .keyword .function => some (.signature c (.resultType .function))
  | .keyword .method => some (.signature c (.resultType .method))
  | _ => none

/-- Takes a token inside the body of a subroutine. -/
def stepBody (c : ClassHead) (s : Signature) (locals : List VarDec) (b : BodyReader) (k : Kind) :
    Option ClassReader :=
  match b.step k with
  | .more b => some (.body c s locals b)
  | .finished statements =>
    let sub : Subroutine := { s with locals := locals.reverse, body := statements }
    some (.members { c with subroutines := sub :: c.subroutines })
  | .stuck => none

/-- Takes a token, if it can stand here. -/
def step : ClassReader → Kind → Option ClassReader
  | .start, .keyword .class => some .className
  | .className, .name s => some (.classBrace s)
  | .classBrace name, .symbol '{' => some (.members ⟨name, [], []⟩)
  | .members c, k => stepMember c k
  | .classVar c kind d, k =>
    match d.step k with
    | .more d => some (.classVar c kind d)
    | .finished dec => some (.members { c with vars := (kind, dec) :: c.vars })
    | .stuck => none
  | .signature c s, k =>
    match s.step k with
    | .more s => some (.signature c s)
    | .finished s => some (.bodyBrace c s)
    | .stuck => none
  | .bodyBrace c s, .symbol '{' => some (.bodyStart c s [])
  | .bodyStart c s before, .keyword .var => some (.localVar c s before .varType)
  | .bodyStart c s before, k => stepBody c s before .start k
  | .localVar c s before d, k =>
    match d.step k with
    | .more d => some (.localVar c s before d)
    | .finished dec => some (.bodyStart c s (dec :: before))
    | .stuck => none
  | .body c s locals b, k => stepBody c s locals b k
  | _, _ => none

/-- Takes a token of a source text. -/
def next (r : ClassReader) (t : Token) : Except SyntaxError ClassReader :=
  match r.step t.kind with
  | some r => .ok r
  | none => .error (.unexpectedToken t)

/-- The class, once all tokens have been taken. -/
def finish : ClassReader → Except SyntaxError Class
  | .closed c => .ok c
  | _ => .error .unexpectedEnd

end ClassReader

end Reader

/-- The class that the tokens spell. -/
def Class.ofTokens (tokens : List Token) : Except SyntaxError Class := do
  let r ← tokens.foldlM Reader.ClassReader.next .start
  r.finish

end JackCompiler
