import Provision.Text.Class

/-!
# Layout

Where rendered items stand on lines. A block puts each item on a line of its own, one level
deeper than the line that opens it; a short list stays on one line.
-/

namespace Provision.Render

structure Layout where
  unit : String
  level : Nat
  deriving DecidableEq, Repr

def commaList (items : List String) : String := ", ".intercalate items

def repeated (text : String) (count : Nat) : String := String.join (List.replicate count text)

/-- Whether items are short enough for one line: 60 bytes with two for each separator. -/
def fitsOnLine (items : List String) : Bool :=
  items.foldl (fun size item => size + item.utf8ByteSize + 2) 0 ≤ 60
    && items.all fun item => !item.toList.contains '\n'

namespace Layout

def pad (layout : Layout) : String := repeated layout.unit layout.level

def innerPad (layout : Layout) : String := repeated layout.unit (layout.level + 1)

/-- Each item on its own line and followed by a comma; nothing to open for no items. -/
def block (layout : Layout) (opening : String) (items : List String) (closing : String) : String :=
  if items.isEmpty then opening ++ closing
  else
    opening ++ "\n" ++ String.join (items.map fun item => layout.innerPad ++ item ++ ",\n")
      ++ layout.pad ++ closing

def list (layout : Layout) (opening : String) (items : List String) (closing : String) : String :=
  if fitsOnLine items then opening ++ commaList items ++ closing
  else layout.block opening items closing

end Layout

end Provision.Render
