import WordMachine.Chunks
import WordMachine.Memory.Basic

/-! # Memory shown in hexadecimal

A dump shows sixteen bytes on a line behind the address of the first of them.
-/

namespace WordMachine.Memory

def dumpWidth : Nat := 16

/-- One line of a dump: an address, and the bytes from there on. -/
def dumpLine (address : Nat) (bytes : List UInt8) : String :=
  Numeral.address address ++ ":" ++
    String.join (bytes.map fun byte => " " ++ String.ofList (Radix.hexadecimal.formatByte byte))

def dumpLines (memory : Memory) : List String :=
  (chunks dumpWidth memory.bytes.toList).mapIdx fun line bytes => dumpLine (dumpWidth * line) bytes

def dump (memory : Memory) : String :=
  "\n".intercalate memory.dumpLines

def summary (memory : Memory) : String :=
  "Memory \x7b bytes: " ++ toString memory.size ++ " \x7d"

end WordMachine.Memory
