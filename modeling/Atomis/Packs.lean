import Atomis.Protocol

/-!
# The language packs

`languages/packs.rs`: the files each language's pack scaffolds and the
extensions it claims. The texts of the scaffolded files are looked up by name
in a table that stands for the constants of `protocol.rs`.
-/

namespace Atomis.Packs

structure LanguagePack where
  id : Language
  extensions : List String
  entryFile : String
  extraFiles : List String
  scaffoldAlways : Bool

def pack : Language → LanguagePack
  | .zig => ⟨.zig, [".zig"], "main.zig", [], true⟩
  | .rust => ⟨.rust, [".rs"], "main.rs", [], false⟩
  | .go => ⟨.go, [".go"], "main.go", ["main_test.go"], false⟩
  | .ts => ⟨.ts, [".ts", ".js", ".mjs"], "main.ts", ["main.test.ts"], false⟩
  | .py => ⟨.py, [".py"], "main.py", ["main_test.py"], false⟩
  | .c => ⟨.c, [".c"], "main.c", ["main_test.c"], false⟩
  | .cpp => ⟨.cpp, [".cpp", ".cc"], "main.cpp", ["main_test.cpp"], false⟩

def packs : List LanguagePack := [Language.zig, .rust, .go, .ts, .py, .c, .cpp].map pack

def packForPath (path : String) : Option LanguagePack :=
  packs.find? fun p => p.extensions.any fun ext => ext.toList.isSuffixOf path.toList

end Atomis.Packs
