import DuplicateBlocks.Exclusion
import DuplicateBlocks.Path.Basic

namespace DuplicateBlocks.Discovery

def defaultExtensions : List String :=
  ["js", "jsx", "ts", "tsx", "mjs", "cjs"]

def defaultIgnoredDirectories : List String :=
  [".git", ".hg", ".svn", "node_modules", "target", "dist", "build", "out", "coverage", ".next", ".turbo", ".cache"]

def defaultMaxFileSize : Nat := 10 * 1024 * 1024

structure Options where
  extensions : List String := defaultExtensions
  ignoredDirectories : List String := defaultIgnoredDirectories
  respectIgnoreFiles : Bool := true
  maxFileSize : Option Nat := some defaultMaxFileSize
  maxFiles : Option Nat := none
  maxTotalBytes : Option Nat := none
  excluded : Exclusion := {}
  -- The file with the user's own ignore rules, if there is one.
  globalIgnoreFile : Option String := none

namespace Options

-- Whether two texts are equal but for the case of ASCII letters.
def sameLetters (a b : String) : Bool :=
  a.toList.map Char.toLower == b.toList.map Char.toLower

-- Whether a path has a wanted extension. Dots in front of the wanted one do not count.
def wants (o : Options) (path : String) : Bool :=
  match Path.extension? path with
  | none => false
  | some e => o.extensions.any fun want => sameLetters (String.ofList (want.toList.dropWhile (· == '.'))) e

end Options
end DuplicateBlocks.Discovery
