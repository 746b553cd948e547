/-
  SymbolAtlas.Dialect.Declarations: the line rules of languages whose definitions begin with a
  keyword, and the rules for languages without a table of their own.
-/

import SymbolAtlas.Dialect.Rule

namespace SymbolAtlas.Declarations

open Pattern

/-- `word name`, the name as part 1. -/
def defined (word : String) : Pattern := keyword word ++ name 1

/-- `word name (`. -/
def definedCall (word : String) : Pattern := defined word ++ blanks ++ lit "("

/-- A keyword with the blanks after it or nothing, one after another. -/
def optKeywords : List String → Pattern
  | [] => empty
  | w :: ws => optKeyword w ++ optKeywords ws

/-! ## Python -/

def python : LineRules where
  symbols := [.of "function" (definedCall "def"), .of "class" (defined "class")]
  calls :=
    { excluded := ["if", "for", "while", "with", "def", "class", "import", "from", "return",
        "print"] }
  headers :=
    [.inherits (defined "class" ++ blanks ++ lit "(" ++ capture 2 (plus (.noneOf ")")) ++ lit ")")]

def pythonName : NameRule := ⟨["def ", "class "], []⟩

/-! ## Swift -/

def swift : LineRules where
  symbols :=
    [.of "function" (definedCall "func"), .of "class" (defined "class"),
     .of "struct" (defined "struct"), .of "protocol" (defined "protocol"),
     { kind := "variable", pattern := capture 1 (anyOf ["let", "var"]) ++ gap ++ name 2
       part := 2 }]
  calls :=
    { excluded := ["if", "for", "while", "switch", "guard", "func", "class", "struct", "enum",
        "protocol", "import", "return", "print"] }
  headers :=
    [.inherits (defined "class" ++ blanks ++ lit ":" ++ blanks ++ name 2),
     { pattern := defined "class" ++ blanks ++ lit "," ++ blanks ++ name 2
       sort := fun _ => ("implements", "protocol") }]

/-- `public` or nothing, one of the words, and a name. -/
def swiftHeader (words : List String) : Pattern :=
  optKeyword "public" ++ anyOf words ++ gap ++ name 1

/-- The word after the first of `keys` that has one. -/
def wordAfter (keys : List String) : List String → Option String
  | w :: w' :: rest => if keys.contains w then some w' else wordAfter keys (w' :: rest)
  | _ => none

/-- The name in a Swift definition: after its keyword; `init` for anything that mentions it; else
the word after a keyword, or the first word that starts with a letter and is none. -/
def swiftName (text : String) : Option String :=
  let headers := [swiftHeader ["class", "struct"], swiftHeader ["func"], swiftHeader ["let", "var"]]
  match headers.findSome? fun p => p.matchStart? text with
  | some m => some (m.group 1)
  | none =>
    if Text.contains "init" text then some "init"
    else
      let words := Text.words text
      let keys := ["class", "struct", "func", "let", "var", "init"]
      match wordAfter keys words with
      | some w => some w
      | none => words.find? fun w =>
          w.toList.head?.any Text.isLetter && !("public" :: "private" :: keys).contains w

/-! ## JavaScript and TypeScript -/

def javascript : LineRules where
  symbols :=
    [.of "function" (definedCall "function"),
     .of "function"
       (defined "const" ++ blanks ++ lit "=" ++ blanks ++ parens ++ blanks ++ lit "=>"),
     .of "class" (defined "class")]
  calls :=
    { excluded := ["if", "for", "while", "switch", "function", "class", "import", "export",
        "return", "console"] }
  headers := [.inherits (defined "class" ++ gap ++ keyword "extends" ++ name 2)]

def javascriptName : NameRule := ⟨["function ", "class ", "const "], []⟩

/-! ## Java -/

/-- Optional modifiers, an optional type parameter list, an optional result type, a name and its
parameters. -/
def javaMethod : Pattern :=
  blanks ++ opt (anyOf ["public", "private", "protected"]) ++ blanks ++
    optKeywords ["static", "final", "synchronized", "native", "abstract", "strictfp"] ++
    opt (lit "<" ++ plus (.noneOf ">") ++ lit ">" ++ gap) ++
    opt (plus ⟨[.word, .char '[', .char ']'], false⟩ ++ gap) ++
    name 1 ++ blanks ++ parens

def java : LineRules where
  symbols :=
    [{ kind := "method"
       pattern := javaMethod
       excluded := ["if", "for", "while", "switch", "try", "catch", "finally"] },
     .of "class" (optKeywords ["public", "abstract", "final", "strictfp"] ++ defined "class"),
     .of "interface" (optKeyword "public" ++ defined "interface")]
  calls :=
    { excluded := ["if", "for", "while", "switch", "try", "catch", "finally", "public", "private",
        "protected", "static", "return"]
      targetKind := "method" }
  headers :=
    [.inherits (defined "class" ++ gap ++ keyword "extends" ++ name 2),
     { pattern := defined "class" ++ gap ++ keyword "implements" ++ name 2
       sort := fun _ => ("implements", "interface") }]

def javaName : NameRule :=
  ⟨["public ", "private ", "protected "],
   ["static ", "final ", "abstract ", "synchronized ", "native "]⟩

/-! ## C and C++ -/

/-- A name and its parameters after anything made of words, stars and ampersands, up to the end of
the line but for qualifiers and a semicolon. -/
def cppFunction : Pattern :=
  opt (plus ⟨[.word, .char '*', .char '&', .blank], false⟩ ++ gap) ++
    name 1 ++ blanks ++ parens ++ blanks ++
    opt (lit "const" ++ blanks) ++ opt (lit "override" ++ blanks) ++
    opt (lit "noexcept" ++ blanks) ++
    opt (lit "=" ++ blanks ++ anyOf ["0", "default", "delete"] ++ blanks) ++
    opt (lit ";") ++ textEnd

def cpp : LineRules where
  symbols :=
    [{ kind := "function"
       pattern := cppFunction
       excluded := ["if", "for", "while", "switch", "try", "catch", "class", "struct", "enum",
         "namespace", "template", "typename"] },
     .of "class" (anyOf ["class", "struct"] ++ gap ++ name 1)]
  calls :=
    { excluded := ["if", "for", "while", "switch", "try", "catch", "class", "struct", "enum",
        "namespace", "template", "typename", "return"] }
  headers :=
    [.inherits (defined "class" ++ blanks ++ lit ":" ++ blanks ++ optKeyword "public" ++ name 2)]

def cppName : NameRule := ⟨["class ", "struct "], []⟩

/-! ## C# -/

/-- An access modifier or nothing, and blanks. -/
def csharpAccess : Pattern :=
  opt (anyOf ["public", "private", "protected", "internal"]) ++ blanks

/-- Optional modifiers, an optional result type, a name and its parameters. -/
def csharpMethod : Pattern :=
  csharpAccess ++
    optKeywords ["static", "virtual", "abstract", "override", "sealed", "async"] ++
    opt (plus ⟨[.word, .char '[', .char ']', .char '<', .char '>'], false⟩ ++ gap) ++
    name 1 ++ blanks ++ parens

def csharp : LineRules where
  symbols :=
    [{ kind := "method"
       pattern := csharpMethod
       excluded := ["if", "for", "while", "switch", "try", "catch", "finally", "using"] },
     .of "class" (csharpAccess ++ optKeywords ["abstract", "sealed", "static", "partial"] ++
        defined "class"),
     .of "interface" (csharpAccess ++ optKeyword "partial" ++ defined "interface")]
  calls :=
    { excluded := ["if", "for", "while", "switch", "try", "catch", "finally", "public", "private",
        "protected", "internal", "static", "return"]
      targetKind := "method" }
  headers :=
    -- by convention the names of interfaces begin with I
    [{ pattern := defined "class" ++ blanks ++ lit ":" ++ blanks ++ name 2
       sort := fun target =>
         if Text.hasPrefix "I" target then ("implements", "interface") else ("inherits", "class") }]

def csharpName : NameRule :=
  ⟨["public ", "private ", "protected ", "internal "],
   ["static ", "virtual ", "abstract ", "override ", "sealed ", "async "]⟩

/-! ## Go -/

/-- A word that may hold stars. -/
def goWord : Pattern := plus ⟨[.word, .char '*'], false⟩

def go : LineRules where
  symbols :=
    [.of "function"
       (keyword "func" ++
         opt (lit "(" ++ blanks ++ goWord ++ gap ++ goWord ++ blanks ++ lit ")" ++ gap) ++
         name 1 ++ blanks ++ lit "("),
     .of "type" (defined "type")]
  calls :=
    { excluded := ["if", "for", "range", "switch", "select", "func", "type", "struct", "interface",
        "import", "return", "fmt"] }

def goName : NameRule := ⟨["func ", "type "], []⟩

/-! ## Rust -/

def rust : LineRules where
  symbols :=
    [.of "function" (definedCall "fn"), .of "struct" (defined "struct"),
     .of "trait" (defined "trait")]
  calls :=
    { excluded := ["if", "for", "while", "match", "fn", "struct", "enum", "trait", "impl", "use",
        "return", "println"] }
  headers :=
    -- the trait comes first and the type that implements it second
    [{ pattern := defined "impl" ++ gap ++ keyword "for" ++ name 2
       owner := 2
       target := 1
       sort := fun _ => ("implements", "trait") }]

def rustName : NameRule := ⟨["fn ", "struct ", "trait "], []⟩

/-! ## Any other language -/

def generic : LineRules where
  symbols :=
    (["def", "func", "function", "fn"].map fun w => .of "function" (defined w)) ++
      [.of "function" (name 1 ++ blanks ++ parens ++ blanks ++ lit "\x7b")] ++
      ["class", "struct", "trait", "protocol", "interface"].map fun w =>
        .of "class" (defined w)
  calls :=
    { excluded := ["if", "for", "while", "switch", "try", "catch", "return", "print", "console"] }

def genericName : NameRule := ⟨["def ", "class ", "function ", "func "], []⟩

end SymbolAtlas.Declarations
