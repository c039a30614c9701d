import Mathlib.Data.List.Basic

/-! The serialization of sqlparser's TRIM direction (serdes/trim.rs); the writer is the bytes written
so far and the reader the bytes not yet read. -/

namespace KipSql

/-- sqlparser's TrimWhereField. -/
inductive TrimWhereField
  | both | leading | trailing
deriving DecidableEq, Repr

/-- How a decode ends without a value: the error of read_exact on a reader with no byte left,
which ? turns into a DatabaseError, or the panic of unreachable!(). -/
inductive DecodeError
  | io | panic
deriving DecidableEq, Repr

namespace TrimWhereField

def typeId : TrimWhereField → UInt8
  | both => 0
  | leading => 1
  | trailing => 2

/-- encode: writer.write_all(&[type_id]) on a writer holding the bytes writer. -/
def encode (x : TrimWhereField) (writer : List UInt8) : List UInt8 :=
  writer ++ [x.typeId]

/-- decode: read_exact of one byte, then the match on it. -/
def decode : List UInt8 → Except DecodeError (TrimWhereField × List UInt8)
  | [] => .error .io
  | oneByte :: reader =>
    match oneByte with
    | 0 => .ok (both, reader)
    | 1 => .ok (leading, reader)
    | 2 => .ok (trailing, reader)
    | _ => .error .panic

@[simp] lemma decode_typeId (x : TrimWhereField) (reader : List UInt8) :
    decode (x.typeId :: reader) = .ok (x, reader) := by
  cases x <;> rfl

lemma eq_typeId_of_decode {oneByte : UInt8} {reader reader' : List UInt8} {x : TrimWhereField}
    (h : decode (oneByte :: reader) = .ok (x, reader')) : oneByte = x.typeId ∧ reader' = reader := by
  simp only [decode] at h
  split at h <;> first | cases h; exact ⟨rfl, rfl⟩ | cases h

/-- decode reads back what encode wrote, whatever follows it, and accepts nothing else: a
reader decodes to x exactly when it starts with the byte encode writes for x. -/
theorem decode_eq_ok_iff (x : TrimWhereField) (reader rest : List UInt8) :
    decode reader = .ok (x, rest) ↔ reader = encode x [] ++ rest := by
  constructor
  · intro h
    cases reader with
    | nil => cases h
    | cons oneByte reader =>
      obtain ⟨rfl, rfl⟩ := eq_typeId_of_decode h
      rfl
  · rintro rfl
    exact decode_typeId x rest

end TrimWhereField

end KipSql
