/-!
# Symbol tables

A symbol table gives each label the address it was defined at. Several labels may share an
address, a label has one address for good: a second definition is refused and hands back the
first. Listings show labels by address and, at one address, in the order of their names, which is
the order of their UTF-8 bytes.
-/

set_option autoImplicit false

namespace WordMachine

/-- Labels with their addresses, latest definition first. -/
structure SymbolTable where
  definitions : List (String × UInt32)

namespace SymbolTable

def empty : SymbolTable := ⟨[]⟩

def size (table : SymbolTable) : Nat :=
  table.definitions.length

def isEmpty (table : SymbolTable) : Bool :=
  table.definitions.isEmpty

/-- The address of a label. -/
def address? (table : SymbolTable) (label : String) : Option UInt32 :=
  table.definitions.lookup label

/-- The table with one more label, or the address the label has already. -/
def define (table : SymbolTable) (label : String) (address : UInt32) :
    Except UInt32 SymbolTable :=
  match table.address? label with
  | some existing => .error existing
  | none => .ok ⟨(label, address) :: table.definitions⟩

/-- The order of labels in listings. -/
def labelLe (first second : String) : Bool :=
  decide (first ≤ second)

/-- The order of entries: by address, then by label. -/
def entryLe (first second : String × UInt32) : Bool :=
  if first.2 = second.2 then labelLe first.1 second.1 else decide (first.2 < second.2)

/-- The labels at an address, in order. -/
def labelsAt (table : SymbolTable) (address : UInt32) : List String :=
  ((table.definitions.filter fun entry => entry.2 == address).map Prod.fst).mergeSort labelLe

/-- All entries, in order. -/
def entries (table : SymbolTable) : List (String × UInt32) :=
  table.definitions.mergeSort entryLe

end SymbolTable
end WordMachine
