import Napastak.CStr
import Napastak.Lib.Framing

/-! The write-ahead log of a table: one file of records, where the first byte of a record
says what it is. -/
namespace Napastak.Store
open Codec Framing

def walVersionCompressed : UInt8 := 0x01
def walOpDelete : UInt8 := 0x02
def walOpUpdate : UInt8 := 0x03
def walOpInsertEsc : UInt8 := 0x04

/-- `wal_append`, the write succeeding. -/
def walAppend (file data : Bytes) : Bytes := file ++ framed data

/-- `wal_tell`. -/
def walTell (file : Bytes) : Nat := file.length

/-- The eight bytes of an offset, most significant first. -/
def offsetBytes (off : Nat) : Bytes := (leBytes 8 (off % 2 ^ 64)).reverse

/-- The offset read from the eight bytes after the opcode. -/
def offsetValue (record : Bytes) : Nat := leValue ((record.drop 1).take 8).reverse

def deleteRecord (off : Nat) : Bytes := walOpDelete :: offsetBytes off

def updateRecord (off : Nat) (csv : Bytes) : Bytes := walOpUpdate :: (offsetBytes off ++ csv)

/-- `table_delete`, through `wal_append_delete`. -/
def tableDelete (file : Bytes) (off : Nat) : Bytes := walAppend file (deleteRecord off)

/-- `table_update`, through `wal_append_update`. -/
def tableUpdate (file : Bytes) (off : Nat) (csv : Bytes) : Bytes := walAppend file (updateRecord off csv)

theorem walAppendAll (file : Bytes) (ps : List Bytes) : ps.foldl walAppend file = file ++ frame ps := by
  induction ps generalizing file with
  | nil => simp [frame]
  | cons p ps ih =>
    rw [List.foldl_cons,ih,walAppend,List.append_assoc]
    rfl

theorem offsetBytesLength (off : Nat) : (offsetBytes off).length = 8 := by simp [offsetBytes]

theorem offsetDelete (off : Nat) : offsetValue (deleteRecord off) = off % 2 ^ 64 := by
  have : (offsetBytes off).take 8 = offsetBytes off := List.take_of_length_le (by simp [offsetBytesLength])
  simp only [offsetValue,deleteRecord,List.drop_succ_cons,List.drop_zero,this]
  rw [offsetBytes,List.reverse_reverse,leValueBytes (by omega)]

theorem offsetUpdate (off : Nat) (csv : Bytes) : offsetValue (updateRecord off csv) = off % 2 ^ 64 := by
  simp only [offsetValue,updateRecord,List.drop_succ_cons,List.drop_zero,List.take_left' (offsetBytesLength off)]
  rw [offsetBytes,List.reverse_reverse,leValueBytes (by omega)]

end Napastak.Store
