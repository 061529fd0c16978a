import Index.Lib.Text

/-! # Languages

The language table of the `langs` crate, as far as names and file extensions are concerned. -/

namespace Index.Langs

open Index.Lib

inductive Lang where
  | rust | javaScript | typeScript | typeScriptTsx | python | go
  | java | kotlin | scala
  | c | cpp
  | cSharp
  | swift
  | ruby | php | bash | lua
  | haskell | elixir | oCaml
  | html | css | svelte
  | json | toml | yaml
  | markdown
  | dockerfile
  | nix
deriving DecidableEq

namespace Lang

/-- The order in which detection tries the languages. -/
def all : List Lang :=
  [.rust, .javaScript, .typeScript, .typeScriptTsx, .python, .go, .java, .kotlin, .scala, .c, .cpp, .cSharp, .swift,
    .ruby, .php, .bash, .lua, .haskell, .elixir, .oCaml, .html, .css, .svelte, .json, .toml, .yaml, .markdown,
    .dockerfile, .nix]

structure Profile where
  name : String
  extensions : List String

def profile : Lang → Profile
  | rust => ⟨"Rust", ["rs"]⟩
  | javaScript => ⟨"JavaScript", ["js", "mjs", "cjs", "jsx"]⟩
  | typeScript => ⟨"TypeScript", ["ts", "mts", "cts"]⟩
  | typeScriptTsx => ⟨"TypeScript TSX", ["tsx"]⟩
  | python => ⟨"Python", ["py", "pyi", "bzl", "bazel"]⟩
  | go => ⟨"Go", ["go"]⟩
  | java => ⟨"Java", ["java"]⟩
  | kotlin => ⟨"Kotlin", ["kt", "kts"]⟩
  | scala => ⟨"Scala", ["scala", "sc"]⟩
  | c => ⟨"C", ["c", "h"]⟩
  | cpp => ⟨"C++", ["cpp", "cc", "cxx", "hpp", "hh", "hxx", "h++", "c++"]⟩
  | cSharp => ⟨"C#", ["cs"]⟩
  | swift => ⟨"Swift", ["swift"]⟩
  | ruby => ⟨"Ruby", ["rb", "rake", "gemspec"]⟩
  | php => ⟨"PHP", ["php", "phtml", "php3", "php4", "php5", "php7", "phps"]⟩
  | bash => ⟨"Bash", ["sh", "bash", "zsh"]⟩
  | lua => ⟨"Lua", ["lua"]⟩
  | haskell => ⟨"Haskell", ["hs", "lhs"]⟩
  | elixir => ⟨"Elixir", ["ex", "exs"]⟩
  | oCaml => ⟨"OCaml", ["ml", "mli"]⟩
  | html => ⟨"HTML", ["html", "htm", "xhtml"]⟩
  | css => ⟨"CSS", ["css"]⟩
  | svelte => ⟨"Svelte", ["svelte"]⟩
  | json => ⟨"JSON", ["json", "jsonc"]⟩
  | toml => ⟨"TOML", ["toml"]⟩
  | yaml => ⟨"YAML", ["yaml", "yml"]⟩
  | markdown => ⟨"Markdown", ["md", "markdown", "mdown", "mkd"]⟩
  | dockerfile => ⟨"Dockerfile", []⟩
  | nix => ⟨"Nix", ["nix"]⟩

end Lang

/-- The first language that registers the extension, which may be written with its dot. -/
def detectFromExtension (ext : String) : Option Lang :=
  let bare := match ext.toList with
    | '.' :: rest => String.ofList rest
    | _ => ext
  Lang.all.find? fun lang => bare ∈ lang.profile.extensions

/-- Every language is tried. -/
theorem Lang.mem_all (lang : Lang) : lang ∈ Lang.all := by cases lang <;> decide

/-- No extension is registered twice, so detection does not depend on the order of the languages. -/
theorem Lang.extensions_disjoint {left right : Lang} {ext : String} (inLeft : ext ∈ left.profile.extensions)
    (inRight : ext ∈ right.profile.extensions) : left = right := by
  have table : ∀ left ∈ Lang.all, ∀ right ∈ Lang.all, ∀ ext ∈ left.profile.extensions,
      ext ∈ right.profile.extensions → left = right := by decide +kernel
  exact table left left.mem_all right right.mem_all ext inLeft inRight

end Index.Langs
