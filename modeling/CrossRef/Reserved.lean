/-
  CrossRef.Reserved

  Names that never count as usages: keywords, the names every program starts
  out with, and the customary names of a method's first parameter.
-/

namespace CrossRef.Reserved

def keywords : List String :=
  ["False", "None", "True", "and", "as", "assert", "async", "await", "break", "class",
   "continue", "def", "del", "elif", "else", "except", "finally", "for", "from", "global",
   "if", "import", "in", "is", "lambda", "nonlocal", "not", "or", "pass", "raise", "return",
   "try", "while", "with", "yield"]

/-- Functions, types, errors and values that are there without an import. -/
def builtins : List String :=
  ["abs", "all", "any", "ascii", "bin", "bool", "breakpoint", "bytearray", "bytes", "callable",
   "chr", "classmethod", "compile", "complex", "delattr", "dict", "dir", "divmod", "enumerate",
   "eval", "exec", "filter", "float", "format", "frozenset", "getattr", "globals", "hasattr",
   "hash", "help", "hex", "id", "input", "int", "isinstance", "issubclass", "iter", "len",
   "list", "locals", "map", "max", "memoryview", "min", "next", "object", "oct", "open", "ord",
   "pow", "print", "property", "range", "repr", "reversed", "round", "set", "setattr", "slice",
   "sorted", "staticmethod", "str", "sum", "super", "tuple", "type", "vars", "zip",
   "Exception", "BaseException", "ArithmeticError", "AssertionError", "AttributeError",
   "EOFError", "FileNotFoundError", "ImportError", "IndexError", "KeyError", "KeyboardInterrupt",
   "LookupError", "NameError", "NotImplementedError", "OSError", "IOError", "PermissionError",
   "RuntimeError", "StopIteration", "TypeError", "ValueError", "ZeroDivisionError",
   "NotImplemented", "Ellipsis", "__name__", "__file__", "__doc__", "__init__"]

/-- Parameters with these names are neither declared nor used. -/
def implicitParameters : List String := ["self", "cls"]

def isKeyword (name : String) : Bool := keywords.contains name

def isImplicitParameter (name : String) : Bool := implicitParameters.contains name

/-- Names that are no usages wherever they stand. -/
def isReserved (name : String) : Bool :=
  isKeyword name || builtins.contains name || isImplicitParameter name

end CrossRef.Reserved
