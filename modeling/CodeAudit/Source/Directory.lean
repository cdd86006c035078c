set_option autoImplicit false

namespace CodeAudit

inductive Entry where
  | file (name : String) (bytes : List UInt8)
  | directory (name : String) (entries : List Entry)
  deriving Repr

namespace Entry

def name : Entry → String
  | .file n _ => n
  | .directory n _ => n

def entries : Entry → List Entry
  | .file _ _ => []
  | .directory _ es => es

def find? (name : String) (es : List Entry) : Option Entry := es.find? fun e => e.name == name

def insert (e : Entry) : List Entry → List Entry
  | [] => [e]
  | d :: r => if d.name == e.name then e :: r else d :: insert e r

def under (es : List Entry) : List String → List Entry
  | [] => es
  | n :: r => under (((find? n es).map entries).getD []) r

def exists? (es : List Entry) : List String → Bool
  | [] => true
  | n :: r =>
    match find? n es with
    | some e => exists? e.entries r
    | none => false

def makeDirectory (es : List Entry) : List String → List Entry
  | [] => es
  | n :: r => insert (.directory n (makeDirectory (((find? n es).map entries).getD []) r)) es

def write (bytes : List UInt8) (es : List Entry) : List String → List Entry
  | [] => es
  | [n] => insert (.file n bytes) es
  | n :: r => insert (.directory n (write bytes (((find? n es).map entries).getD []) r)) es

end Entry
end CodeAudit
