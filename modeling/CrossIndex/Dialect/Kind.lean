import CrossIndex.Path.Basic

/-!
The dialects: the frameworks whose conventions for registration are known.
-/

namespace CrossIndex

/-- A framework with a convention of its own. -/
inductive Dialect where
  | tvm
  | mxnet
  | torch
  | dgl
  | taichi
  deriving DecidableEq, Repr

structure UnknownDialect where
  name : String
  deriving DecidableEq, Repr

namespace Dialect

/-- All dialects, in the order in which they are detected. -/
def all : List Dialect := [tvm, mxnet, torch, dgl, taichi]

def name : Dialect → String
  | tvm => "tvm"
  | mxnet => "mxnet"
  | torch => "torch"
  | dgl => "dgl"
  | taichi => "taichi"

/-- The path below the root of a source tree that shows its dialect. -/
def marker : Dialect → Path
  | tvm => .ofString "python/tvm"
  | mxnet => .ofString "python/mxnet"
  | torch => .ofString "torch"
  | dgl => .ofString "python/dgl"
  | taichi => .ofString "python/taichi"

def ofName (text : String) : Except UnknownDialect Dialect :=
  match all.find? (·.name = text) with
  | some dialect => .ok dialect
  | none => .error ⟨text⟩

end Dialect

def UnknownDialect.message (e : UnknownDialect) : String :=
  "Unknown dialect '" ++ e.name ++ "' (expected one of: "
    ++ ", ".intercalate (Dialect.all.map Dialect.name) ++ ")"

end CrossIndex
