/-!
# Extensions of file names

The extension of a name is what follows its last point, unless the name begins with that point.
`withExtension` gives the last name of a path another extension.
-/

namespace Dotlang

/-- A name with its extension replaced, or with one added if it has none. What is left of a name such as
`..x` without its extension is `..`, which names a folder and takes no other one. -/
def replaceExtension (name extension : List Char) : List Char :=
  let stem := ((name.reverse.dropWhile (· ≠ '.')).drop 1).reverse
  if stem = ['.'] then ['.', '.']
  else (if stem = [] then name else stem) ++ '.' :: extension

def withExtension (path extension : String) : String :=
  let reversed := path.toList.reverse
  let folder := (reversed.dropWhile (· ≠ '/')).reverse
  let name := (reversed.takeWhile (· ≠ '/')).reverse
  String.ofList (folder ++ replaceExtension name extension.toList)

example : withExtension "a.b/p.x.cf" "asm" = "a.b/p.x.asm" := by decide +kernel
example : withExtension "a.b/prog" "asm" = "a.b/prog.asm" := by decide +kernel
example : withExtension ".hidden" "ir" = ".hidden.ir" := by decide +kernel
example : withExtension "a/..cf" "ir" = "a/.." := by decide +kernel
example : withExtension "...cf" "ir" = "...ir" := by decide +kernel

end Dotlang
