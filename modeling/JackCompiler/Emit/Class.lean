import JackCompiler.Emit.Statement
/-!
# Code of a class

The code of a class is the code of its subroutines, in order. A constructor first makes room for the
fields of its object; a method finds its object as its first argument.
-/

namespace JackCompiler

namespace Emit

/-- Defines the variables of a declaration. -/
def declare (kind : SymbolKind) (t : SymbolTable) (d : VarDec) : SymbolTable :=
  d.names.foldl (fun t name => t.define name d.type.name kind) t

/-- The kind of the variables that a class declares. -/
def classVarKind : ClassVarKind → SymbolKind
  | .static => .static
  | .field => .field

/-- The variables that are known in the whole class. -/
def classSymbols (c : Class) : SymbolTable :=
  c.vars.foldl (fun t (kind, d) => declare (classVarKind kind) t d) {}

/-- The variables that are known in a subroutine. The object of a method is its first argument. -/
def subroutineSymbols (className : String) (t : SymbolTable) (sub : Subroutine) : SymbolTable :=
  let t := t.startSubroutine
  let t := if sub.kind = .method then t.define "this" className .argument else t
  let t := sub.parameters.foldl (fun t p => t.define p.name p.type.name .argument) t
  sub.locals.foldl (declare .local) t

/-- What a subroutine does before its first statement. -/
def prologue (t : SymbolTable) : SubroutineKind → Code
  | .constructor =>
    [.push .constant (UInt16.ofNat (t.count .field)), .call "Memory.alloc" 1, .pop .pointer 0]
  | .method => [.push .argument 0, .pop .pointer 0]
  | .function => []

/-- The code of a subroutine. -/
def subroutine (className : String) (t : SymbolTable) (sub : Subroutine) : EmitM Code := do
  let symbols := subroutineSymbols className t sub
  let body ← statements { className, symbols, isVoid := sub.result.isNone } sub.body
  return .function (qualified className sub.name) (UInt16.ofNat (symbols.count .local))
    :: (prologue symbols sub.kind ++ body)

end Emit

/-- The code of a class. -/
def Class.emit (c : Class) : Emit.EmitM Code := do
  let codes ← c.subroutines.mapM (Emit.subroutine c.name (Emit.classSymbols c))
  return codes.flatten

end JackCompiler
