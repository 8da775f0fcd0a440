/-!
# Words and case conventions

A declared name is cut into words at every character that is not an ASCII letter or digit and at
changes of case: `error404Document` is `error404`, `Document` and `HTTPServer` is `HTTP`,
`Server`. The words are put together again in one of three conventions.
-/

namespace Provision.Names

def opensWord (previous c : Char) (next : Option Char) : Bool :=
  c.isUpper
    && (previous.isLower || previous.isDigit || (previous.isUpper && next.any Char.isLower))

def wordsFrom (previous : Option Char) (current : List Char) : List Char → List (List Char)
  | [] => if current.isEmpty then [] else [current]
  | c :: rest =>
    if !c.isAlphanum then
      if current.isEmpty then wordsFrom (some c) [] rest
      else current :: wordsFrom (some c) [] rest
    else if previous.any (opensWord · c rest.head?) && !current.isEmpty then
      current :: wordsFrom (some c) [c] rest
    else wordsFrom (some c) (current ++ [c]) rest

def words (name : List Char) : List (List Char) := wordsFrom none [] name

def lowerWord (word : List Char) : List Char := word.map Char.toLower

def capitalize : List Char → List Char
  | [] => []
  | c :: rest => c.toUpper :: rest

def fallback : List Char := "value".toList

def guardStart (empty identifier : List Char) : List Char :=
  match identifier with
  | [] => empty
  | c :: rest => if c.isDigit then '_' :: c :: rest else c :: rest

def snake (name : List Char) : List Char :=
  guardStart fallback (List.intercalate ['_'] ((words name).map lowerWord))

def camel (name : List Char) : List Char :=
  guardStart fallback
    (match words name with
      | [] => []
      | first :: rest => lowerWord first ++ (rest.map capitalize).flatten)

def pascal (name : List Char) : List Char :=
  guardStart (capitalize fallback) ((words name).map capitalize).flatten

def snakeCase (name : String) : String := String.ofList (snake name.toList)

def camelCase (name : String) : String := String.ofList (camel name.toList)

def pascalCase (name : String) : String := String.ofList (pascal name.toList)

end Provision.Names
