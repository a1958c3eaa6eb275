import AmpcCommon.Base.Outcome
import AmpcCommon.Base.LittleEndian

/-!
# Byte buffers

A buffer is a list of bytes. Reading outside of it panics, as indexing and slicing do in the source.
-/

namespace AmpcCommon

abbrev Bytes := List UInt8

namespace Bytes

/-- `bs[i]` -/
def index (bs : Bytes) (i : Nat) : Outcome UInt8 :=
  match bs[i]? with
  | some b => .ok b
  | none => .panicked "index out of bounds"

/-- `&bs[start..stop]` -/
def slice (bs : Bytes) (start stop : Nat) : Outcome Bytes :=
  if start ≤ stop ∧ stop ≤ bs.length then .ok ((bs.drop start).take (stop - start))
  else .panicked "range out of range for slice"

/-- `bs[start..start + new.len()].copy_from_slice(new)` -/
def copyFromSlice (bs : Bytes) (start : Nat) (new : Bytes) : Outcome Bytes :=
  if start + new.length ≤ bs.length then
    .ok (bs.take start ++ new ++ bs.drop (start + new.length))
  else .panicked "range out of range for slice"

/-- `<[u8; n]>::try_from(bs)?` followed by `from_le_bytes` -/
def fromLeBytes (n : Nat) (bs : Bytes) : Outcome Nat :=
  if bs.length = n then .ok (LittleEndian.decode bs)
  else .bail "could not convert slice to array"

@[simp] theorem index_cons_zero (b : UInt8) (bs : Bytes) : index (b :: bs) 0 = .ok b := rfl

theorem slice_eq_ok {bs : Bytes} {start stop : Nat} (h : start ≤ stop) (h' : stop ≤ bs.length) :
    bs.slice start stop = .ok ((bs.drop start).take (stop - start)) := by
  rw [slice, if_pos ⟨h, h'⟩]

end Bytes

end AmpcCommon
