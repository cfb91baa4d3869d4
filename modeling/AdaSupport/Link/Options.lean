import AdaSupport.Bytes.Utf8

/-!
# The linker command

* `Options`: what is linked, and under which names.
* `Options.arguments`: the arguments for the compiler driver.
-/

namespace AdaSupport.Link

/-- The procedure that the support library calls first. -/
def entrySymbol : String := "Main"

/-- Where the support library is built. -/
def defaultRuntime : String := "target/release/libada_runtime.a"

/-- What is linked, and under which names. -/
structure Options where
  input : Bytes
  runtime : Bytes
  output : Bytes
  entry : String
  compiler : String
  deriving DecidableEq, Repr

/-- The argument that makes the entry procedure known under the name that the support library
calls; none is needed when it has that name. -/
def aliasArguments (entry target : String) : List String :=
  if entry = entrySymbol then []
  else if target = "macos" ∨ target = "ios" then
    ["-Wl,-alias,_" ++ entry ++ ",_" ++ entrySymbol]
  else ["-Wl,--defsym=" ++ entrySymbol ++ "=" ++ entry]

/-- The system libraries of a target. -/
def systemLibraries (target : String) : List String :=
  if target = "linux" then ["-lpthread", "-ldl", "-lm"] else []

/-- The arguments for the compiler driver. -/
def Options.arguments (o : Options) (target : String) : List String :=
  [Utf8.display o.input, Utf8.display o.runtime, "-o", Utf8.display o.output, "-O2",
    "-Wno-override-module"] ++ aliasArguments o.entry target ++ systemLibraries target

/-- The arguments that build the support library. -/
def buildArguments : List String :=
  ["build", "--release", "-p", "ada-runtime", "--features", "entry-shim"]

end AdaSupport.Link
