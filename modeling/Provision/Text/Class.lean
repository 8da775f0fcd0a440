/-!
# Character classes

The classes of characters that decide how text is cut and quoted. Letters, digits and case are
ASCII throughout the library, so `Char.isAlpha` and its kin serve there; the two classes below
range over all of Unicode.
-/

namespace Provision.Text

def isControl (c : Char) : Bool :=
  c.toNat < 0x20 || (0x7f ≤ c.toNat && c.toNat < 0xa0)

def isBlank (c : Char) : Bool :=
  let code := c.toNat
  (0x09 ≤ code && code ≤ 0x0d) || code == 0x20 || code == 0x85 || code == 0xa0 || code == 0x1680
    || (0x2000 ≤ code && code ≤ 0x200a) || code == 0x2028 || code == 0x2029 || code == 0x202f
    || code == 0x205f || code == 0x3000

def dropBlanks (text : List Char) : List Char :=
  text.dropWhile isBlank

def trim (text : String) : String :=
  String.ofList (dropBlanks (dropBlanks text.toList).reverse).reverse

def lower (text : String) : String :=
  String.ofList (text.toList.map Char.toLower)

def byteLength : List Char → Nat
  | [] => 0
  | c :: rest => c.utf8Size + byteLength rest

theorem byteLength_append (left right : List Char) :
    byteLength (left ++ right) = byteLength left + byteLength right := by
  induction left with
  | nil => simp [byteLength]
  | cons c rest ih => simp [byteLength, ih, Nat.add_assoc]

theorem byteLength_eq_utf8ByteSize (text : List Char) :
    byteLength text = (String.ofList text).utf8ByteSize := by
  induction text with
  | nil => rfl
  | cons c rest ih =>
      rw [byteLength, ih, String.ofList_cons, String.utf8ByteSize_append,
        String.utf8ByteSize_singleton]

end Provision.Text
