/-
Disk usage of data nodes and the watermarks that bound it.

A watermark is a share of used space in percent or a floor of free bytes.  The used
share is computed in doubles, as `used * 100 / total` with a rounding after each step.
-/
import ShardAllocation.ByteSize

namespace ShardAllocation

/-- What a data node reports about its disk, in bytes. -/
structure DiskUsage where
  total : Nat
  free : Nat
  deriving DecidableEq, Repr

namespace DiskUsage

/-- The used bytes; none when more is reported free than there is. -/
def used (u : DiskUsage) : Nat := u.total - u.free

/-- The used share in percent; zero for a disk without space. -/
def usedPercent (u : DiskUsage) : Binary :=
  if u.total = 0 then Binary.ofNat .double 0
  else
    let hundredfold := Binary.mul .double (Binary.ofNat .double u.used) (Binary.natural 100)
    Binary.div .double hundredfold (Binary.ofNat .double u.total)

/-- The used share and the free space, as verdicts mention them. -/
def text (u : DiskUsage) : String :=
  s!"{u.usedPercent.fixed 1}% used, {ByteSize.toText u.free} free"

instance : ToString DiskUsage := ⟨text⟩

end DiskUsage

/-- A bound on disk usage: a share of used space or a floor of free space. -/
inductive Watermark where
  | usedPercent (percent : Binary)
  | freeBytes (bytes : Nat)
  deriving DecidableEq, Repr

namespace Watermark

/-- Whether the usage is past the watermark. -/
def isExceededBy (w : Watermark) (u : DiskUsage) : Bool :=
  match w with
  | usedPercent percent => Binary.lt percent u.usedPercent
  | freeBytes bytes => u.free < bytes

/-- The form that messages show. -/
def text : Watermark → String
  | usedPercent percent => s!"{percent.shortest .double}%"
  | freeBytes bytes => s!"{ByteSize.toText bytes} free"

instance : ToString Watermark := ⟨text⟩

/-- The form that is stored; `ofText` reads it. -/
def toText : Watermark → String
  | usedPercent percent => s!"{percent.shortest .double}%"
  | freeBytes bytes => s!"{bytes}b"

/-- Reads a watermark: a number before a percent sign, or a size in bytes. -/
def ofText (text : String) : Except Fault Watermark :=
  let cs := Text.trim text.toList
  match cs.getLast? with
  | some '%' =>
    match Binary.ofChars? .double (Text.trim cs.dropLast) with
    | some percent => .ok (.usedPercent percent)
    | none => .error (.invalidConfig s!"invalid watermark: {String.ofList cs}")
  | _ => (ByteSize.ofText (String.ofList cs)).map .freeBytes

end Watermark

end ShardAllocation
